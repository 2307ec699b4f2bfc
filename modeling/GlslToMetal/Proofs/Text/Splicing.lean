import GlslToMetal.Proofs.Text.Neat

/-! Edits part by part. Edits that stand one behind another cut the text into parts that stay and parts
that are replaced, and a text that is put together from parts is edited part by part. -/

namespace GlslToMetal

open List Text

variable {es : List Edit} {c k : Nat} {t : Text}

namespace Edit

theorem cut_one (t : Text) (i : Nat) : t.cut ⟨i, i + 1⟩ = (t.drop i).take 1 := by simp [cut]

theorem spliced_cut (t : Text) (h : c ≤ k) (hes : ∀ e ∈ es, k ≤ e.range.start) :
    spliced t c es = t.cut ⟨c, k⟩ ++ spliced t k es := by
  cases es with
  | nil => exact (cut_append_drop t h).symm
  | cons e es =>
    have he := hes e mem_cons_self
    rw [spliced, spliced, if_neg (by omega), if_neg (by omega), ← cut_append_cut t h he, append_assoc]

theorem spliced_append_of_lt (t : Text) (h : ∀ e ∈ es, e.range.start < c)
    (more : List Edit) : spliced t c (es ++ more) = spliced t c more := by
  induction es with
  | nil => rfl
  | cons e es ih =>
    rw [cons_append, spliced, if_pos (h e mem_cons_self)]
    exact ih fun e he => h e (mem_cons_of_mem _ he)

/-- The edits, which stand one behind another in the text that begins at offset `i`, make the second
text of the first. -/
inductive Splices : Nat → Text → List Edit → Text → Prop where
  | keep (i : Nat) (t : Text) : Splices i t [] t
  | edit {i : Nat} {kept old new rest rest' : Text} {es : List Edit} : old ≠ [] →
      Splices (i + kept.length + old.length) rest es rest' →
      Splices i (kept ++ old ++ rest) (⟨⟨i + kept.length, i + kept.length + old.length⟩, new⟩ :: es)
        (kept ++ new ++ rest')

namespace Splices

variable {i : Nat} {t t' : Text} {es : List Edit}

theorem prepend (k : Text) (h : Splices (i + k.length) t es t') : Splices i (k ++ t) es (k ++ t') := by
  cases h with
  | keep => exact .keep i (k ++ t)
  | @edit _ kept old new rest rest' es hne h =>
    have hlength : i + k.length + kept.length = i + (k ++ kept).length := by simp [Nat.add_assoc]
    rw [hlength] at h ⊢
    simpa only [append_assoc] using @Splices.edit i (k ++ kept) old new rest rest' es hne h

theorem bounds (h : Splices i t es t') :
    ∀ e ∈ es, i ≤ e.range.start ∧ e.range.start < e.range.stop ∧ e.range.stop ≤ i + t.length := by
  induction h with
  | keep => simp
  | @edit i kept old new rest rest' es hne h ih =>
    intro e he
    have hpos := length_pos_iff.2 hne
    simp only [length_append]
    rcases mem_cons.1 he with rfl | he
    · dsimp only
      omega
    · have := ih e he
      omega

theorem pairwise_start (h : Splices i t es t') : es.Pairwise (·.range.start < ·.range.start) := by
  induction h with
  | keep => exact .nil
  | @edit i kept old new rest rest' es hne h ih =>
    refine .cons (fun e he => ?_) ih
    have hle := (h.bounds e he).1
    have hpos := length_pos_iff.2 hne
    dsimp only
    omega

end Splices

end Edit

end GlslToMetal
