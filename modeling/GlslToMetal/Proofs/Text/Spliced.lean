import GlslToMetal.Proofs.Checked
import GlslToMetal.Proofs.Text.Matching
import GlslToMetal.Proofs.Text.Rewriting

/-! What edits make of a text. They are applied from left to right, and one that starts inside an edit
that is applied is dropped. Those that are applied stand one behind another, and their ranges are
replaced at once, whatever the order in which the edits were given. -/

namespace GlslToMetal

open List Text

variable {c k : Nat} {e : Edit} {es : List Edit} {t : Text}

namespace Text

theorem isBoundary_zero (t : Text) : t.isBoundary 0 := by
  cases t <;> rfl

theorem isBoundary_length (t : Text) : t.isBoundary t.length := by
  simp [isBoundary]

theorem slice_eq_cut {r : Range} (hr : r.start ≤ r.stop) (hstop : r.stop ≤ t.length)
    (hstart : t.isBoundary r.start) (hstop' : t.isBoundary r.stop) : t.slice r = .ok (t.cut r) := by
  rw [slice, if_neg (Nat.not_lt.mpr hr), if_neg (Nat.not_lt.mpr hstop), hstart, hstop']
  rfl

theorem slice_of_isBoundary {pre mid post : Text} (hstart : (pre ++ mid ++ post).isBoundary pre.length)
    (hstop : (pre ++ mid ++ post).isBoundary (pre.length + mid.length)) :
    (pre ++ mid ++ post).slice ⟨pre.length, pre.length + mid.length⟩ = .ok mid := by
  rw [slice_eq_cut (by simp) (by simp) hstart hstop, cut_append]

theorem cut_to_end (t : Text) (i : Nat) : t.cut ⟨i, t.length⟩ = t.drop i := by
  rw [cut, take_of_length_le (by rw [length_drop])]

theorem cut_append_drop (t : Text) (h : c ≤ k) : t.cut ⟨c, k⟩ ++ t.drop k = t.drop c :=
  (drop_start (t := t) (r := ⟨c, k⟩) h).symm

end Text

namespace Edit

/-- What the edit takes out of the text lies in it, between two characters. -/
structure Cuts (t : Text) (e : Edit) : Prop where
  within : e.range.Within t.length
  start : t.isBoundary e.range.start
  stop : t.isBoundary e.range.stop

theorem cuts_of_isAscii (ht : t.IsAscii) (h : e.range.Within t.length) : e.Cuts t :=
  ⟨h, isBoundary_of_isAscii ht (Nat.le_trans h.1 h.2), isBoundary_of_isAscii ht h.2⟩

/-- The text from offset `c` on with the edits, an edit that starts before `c` apart. -/
def spliced (t : Text) (c : Nat) : List Edit → Text
  | [] => t.drop c
  | e :: es =>
    if e.range.start < c then spliced t c es
    else t.cut ⟨c, e.range.start⟩ ++ (e.replacement ++ spliced t e.range.stop es)

theorem applyFrom_eq_spliced (h : ∀ e ∈ es, e.Cuts t) (hc : c ≤ t.length) (hboundary : t.isBoundary c) :
    applyFrom t c es = .ok (spliced t c es) := by
  induction es generalizing c with
  | nil =>
    rw [applyFrom, spliced, slice_eq_cut hc (Nat.le_refl _) hboundary (isBoundary_length t), cut_to_end]
  | cons e es ih =>
    obtain ⟨he, hes⟩ := forall_mem_cons.mp h
    rw [applyFrom, spliced]
    split
    · exact ih hes hc hboundary
    · next hge =>
      have hstart : e.range.start ≤ t.length := Nat.le_trans he.within.1 he.within.2
      rw [slice_eq_cut (Nat.not_lt.mp hge) hstart hboundary he.start, ih hes he.within.2 he.stop]
      show Except.ok _ = Except.ok _
      rw [append_assoc]

theorem apply_eq_spliced {edits : List Edit} (h : ∀ e ∈ edits, e.Cuts t) :
    apply edits t = .ok (spliced t 0 (ordered edits)) :=
  applyFrom_eq_spliced (fun e he => h e ((ordered_perm edits).mem_iff.mp he)) (Nat.zero_le _)
    (isBoundary_zero t)

/-- An edit of a text that is put together from what stands before the offset, what is kept, what is
taken out and what follows. -/
theorem spliced_append (before kept old new rest : Text) (es : List Edit) :
    spliced (before ++ (kept ++ old ++ rest)) before.length
      (⟨⟨before.length + kept.length, before.length + kept.length + old.length⟩, new⟩ :: es) =
    kept ++ new ++ spliced (before ++ kept ++ old ++ rest) (before.length + kept.length + old.length) es := by
  have hcut := cut_append before kept (old ++ rest)
  simp only [append_assoc] at hcut ⊢
  rw [spliced, if_neg (by simp), hcut]

theorem mem_spliced {b : UInt8} (h : b ∈ spliced t c es) : b ∈ t ∨ ∃ e ∈ es, b ∈ e.replacement := by
  induction es generalizing c with
  | nil => exact .inl (mem_of_mem_drop h)
  | cons e es ih =>
    rw [spliced] at h
    split at h
    · exact (ih h).imp_right (Exists.imp fun f hf => ⟨mem_cons_of_mem _ hf.1, hf.2⟩)
    · rcases mem_append.mp h with h | h
      · exact .inl (mem_of_mem_drop (mem_of_mem_take h))
      · rcases mem_append.mp h with h | h
        · exact .inr ⟨e, mem_cons_self, h⟩
        · exact (ih h).imp_right (Exists.imp fun f hf => ⟨mem_cons_of_mem _ hf.1, hf.2⟩)

/-- The text from offset `c` on with the ranges of edits that stand one behind another replaced. -/
def replaced (t : Text) (c : Nat) : List Edit → Text
  | [] => t.drop c
  | e :: es => t.cut ⟨c, e.range.start⟩ ++ (e.replacement ++ replaced t e.range.stop es)

/-- The edits that are applied from offset `c` on. -/
def kept (c : Nat) : List Edit → List Edit
  | [] => []
  | e :: es => if e.range.start < c then kept c es else e :: kept e.range.stop es

theorem spliced_eq_replaced (t : Text) (c : Nat) (es : List Edit) :
    spliced t c es = replaced t c (kept c es) := by
  induction es generalizing c with
  | nil => rfl
  | cons e es ih =>
    rw [spliced, kept]
    split
    · exact ih c
    · rw [replaced, ih]

theorem kept_sublist (c : Nat) (es : List Edit) : kept c es <+ es := by
  induction es generalizing c with
  | nil => exact .slnil
  | cons e es ih =>
    rw [kept]
    split
    · exact (ih c).cons e
    · exact (ih _).cons_cons e

section Kept

variable (hle : ∀ e ∈ es, e.range.start ≤ e.range.stop)
include hle

theorem le_of_mem_kept : ∀ e ∈ kept c es, c ≤ e.range.start := by
  induction es generalizing c with
  | nil => exact forall_mem_nil _
  | cons f es ih =>
    obtain ⟨hf, hle⟩ := forall_mem_cons.mp hle
    rw [kept]
    split
    · exact ih hle
    · refine forall_mem_cons.mpr ⟨by omega, fun e he => ?_⟩
      have := @ih f.range.stop hle e he
      omega

theorem pairwise_kept : (kept c es).Pairwise (·.range.stop ≤ ·.range.start) := by
  induction es generalizing c with
  | nil => exact .nil
  | cons f es ih =>
    obtain ⟨-, hle⟩ := forall_mem_cons.mp hle
    rw [kept]
    split
    · exact ih hle
    · exact .cons (le_of_mem_kept hle) (ih hle)

/-- The texts between the edits that are applied, and those that they take out, make up the text. -/
theorem replaced_kept_self (t : Text) (c : Nat) :
    replaced t c ((kept c es).map fun e => ⟨e.range, t.cut e.range⟩) = t.drop c := by
  induction es generalizing c with
  | nil => rfl
  | cons f es ih =>
    obtain ⟨hf, hle⟩ := forall_mem_cons.mp hle
    rw [kept]
    split
    · exact ih hle c
    · next hge => rw [map_cons, replaced, ih hle, cut_append_drop t hf, cut_append_drop t (Nat.not_lt.mp hge)]

/-- An edit is applied if the edits that are applied before it end before it. -/
theorem mem_kept_iff (hsorted : es.Pairwise (·.range.start < ·.range.start)) (he : e ∈ es) : e ∈ kept c es ↔
    c ≤ e.range.start ∧ ∀ k ∈ kept c es, k.range.start < e.range.start → k.range.stop ≤ e.range.start := by
  induction es generalizing c with
  | nil => cases he
  | cons f es ih =>
    obtain ⟨-, hle⟩ := forall_mem_cons.mp hle
    obtain ⟨hfirst, hsorted⟩ := pairwise_cons.mp hsorted
    have hnone : f ∉ es := fun hf => Nat.lt_irrefl _ (hfirst f hf)
    have hlater : ∀ k ∈ kept f.range.stop es, f.range.start < k.range.start :=
      fun k hk => hfirst k ((kept_sublist _ _).subset hk)
    rw [kept]
    rcases mem_cons.mp he with rfl | he
    · split
      · next hlt =>
        refine iff_of_false (fun h => hnone ((kept_sublist _ _).subset h)) fun h => ?_
        exact Nat.not_lt.mpr h.1 hlt
      · next hge =>
        refine iff_of_true mem_cons_self ⟨Nat.not_lt.mp hge,
          forall_mem_cons.mpr ⟨fun h => absurd h (Nat.lt_irrefl _), ?_⟩⟩
        exact fun k hk h => absurd (hlater k hk) (Nat.not_lt.mpr (Nat.le_of_lt h))
    · have hlt := hfirst e he
      split
      · exact ih hle hsorted he
      · rw [mem_cons, or_iff_right (show e ≠ f from fun h => hnone (h ▸ he)), forall_mem_cons,
          ih hle hsorted he]
        refine ⟨fun h => ⟨by omega, fun _ => h.1, h.2⟩, fun h => ⟨h.2.1 hlt, h.2.2⟩⟩

end Kept

/-- The edits that are applied, in the order of their starts: an edit is one of them if those that start
before it end before it. -/
structure Greedy (edits made : List Edit) : Prop where
  subset : made ⊆ edits
  sorted : made.Pairwise (·.range.start < ·.range.start)
  apart : made.Pairwise (·.range.stop ≤ ·.range.start)
  mem_iff : ∀ e ∈ edits, e ∈ made ↔ ∀ k ∈ made, k.range.start < e.range.start → k.range.stop ≤ e.range.start

/-- **Edits are applied at once**: edits with different starts can be applied to a text, and in whatever
order they are given, what is replaced are the ranges of the edits that do not start inside one that is
applied before. All else stays: with what stood in the ranges put back, the text is the text. If no edit
starts inside another, none is dropped. -/
theorem apply_replaces_greedily {edits : List Edit} {t : Text} (hcuts : ∀ e ∈ edits, e.Cuts t)
    (hstarts : edits.Pairwise (·.range.start ≠ ·.range.start)) :
    ∃ made, Greedy edits made ∧ (∀ pushed, pushed.Perm edits → apply pushed t = .ok (replaced t 0 made)) ∧
      replaced t 0 (made.map fun e => ⟨e.range, t.cut e.range⟩) = t ∧
      ((∀ e ∈ edits, ∀ f ∈ edits,
        ¬ (e.range.start < f.range.start ∧ f.range.start < e.range.stop)) → edits ⊆ made) := by
  have hperm := ordered_perm edits
  have hsorted : (ordered edits).Pairwise (·.range.start < ·.range.start) :=
    ((pairwise_ordered edits).and ((hperm.pairwise_iff fun h => h.symm).mpr hstarts)).imp
      fun h => Nat.lt_of_le_of_ne h.1 h.2
  have hle : ∀ e ∈ ordered edits, e.range.start ≤ e.range.stop :=
    fun e he => (hcuts e (hperm.mem_iff.mp he)).within.1
  have hsub := kept_sublist 0 (ordered edits)
  have hiff : ∀ e ∈ edits, e ∈ kept 0 (ordered edits) ↔
      ∀ k ∈ kept 0 (ordered edits), k.range.start < e.range.start → k.range.stop ≤ e.range.start :=
        fun e he => by
    rw [mem_kept_iff hle hsorted (hperm.mem_iff.mpr he), and_iff_right (Nat.zero_le _)]
  have hmade : kept 0 (ordered edits) ⊆ edits := fun e he => hperm.mem_iff.mp (hsub.subset he)
  refine ⟨_, ⟨hmade, hsorted.sublist hsub, pairwise_kept hle, hiff⟩, fun pushed hpushed => ?_, ?_,
    fun hinside e he => ?_⟩
  · rw [apply_eq_spliced fun e he => hcuts e (hpushed.mem_iff.mp he),
      ordered_eq (hpushed.trans hperm.symm) hsorted,
      spliced_eq_replaced]
  · exact replaced_kept_self hle t 0
  · exact (hiff e he).mpr fun k hk hlt => Nat.not_lt.mp fun h => hinside k (hmade hk) e he ⟨hlt, h⟩

/-- Edits that touch and overlap behind a character of two bytes. -/
theorem apply_replaces_greedily_overlapping :
    let t : Text := [97, 195, 169, 98, 99, 100]
    let edits : List Edit :=
      [.replace ⟨3, 5⟩ [120], .replace ⟨4, 6⟩ [121], .replace ⟨1, 3⟩ [], .insert 6 [122]]
    (∀ e ∈ edits, e.Cuts t) ∧ edits.Pairwise (·.range.start ≠ ·.range.start) ∧
      ∃ made, Greedy edits made ∧ ∀ pushed, pushed.Perm edits → apply pushed t = .ok (replaced t 0 made) := by
  intro t edits
  have hcuts : ∀ e ∈ edits, e.Cuts t := fun e he => by
    simp only [edits, mem_cons, not_mem_nil, or_false] at he
    rcases he with rfl | rfl | rfl | rfl <;> exact ⟨⟨by decide, by decide⟩, by decide, by decide⟩
  have hstarts : edits.Pairwise (·.range.start ≠ ·.range.start) := by decide
  obtain ⟨made, hgreedy, hmade, -⟩ := apply_replaces_greedily hcuts hstarts
  exact ⟨hcuts, hstarts, made, hgreedy, hmade⟩

end Edit

end GlslToMetal
