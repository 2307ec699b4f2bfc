import GlslToMetal.Proofs.Text.Blank
import GlslToMetal.Proofs.Text.Matching
import Mathlib.Algebra.Ring.Int.Defs

/-! Lists between parentheses in any text. A parenthesis is closed by the first that closes more than
was opened behind it. What stands between them is cut at the commas at depth 0, and the depth counts
delimiters of every kind, so what stands before a comma decides whether it counts. -/

namespace GlslToMetal

open List Text

variable {xs : List Text} {t : Text}

namespace Text

/-- The parentheses of the text are closed in it. -/
def ParensClosed (t : Text) : Prop := Delimiter.paren.behind? 0 t = some 0

theorem matching?_paren {l rest : Text} {c : Nat} : (l ++ 40 :: rest).matching? l.length = some c ↔
      ∃ t r, rest = t ++ 41 :: r ∧ ParensClosed t ∧ c = l.length + 1 + t.length := by
  have hdrop : (l ++ 40 :: rest).drop (l.length + 1) = rest := by simp
  rw [matching?_of_opener (d := .paren) (by simp [Delimiter.opener]), hdrop, Option.map_eq_some_iff]
  constructor
  · rintro ⟨n, hn, rfl⟩
    obtain ⟨t, r, rfl, ht, rfl⟩ := Delimiter.toCloser_eq_some_iff.mp hn
    exact ⟨t, r, rfl, ht, rfl⟩
  · rintro ⟨t, r, rfl, ht, rfl⟩
    exact ⟨t.length, Delimiter.toCloser_eq_some_iff.mpr ⟨t, r, rfl, ht, rfl⟩, rfl⟩

/-- How many more delimiters a byte opens than it closes. -/
def byteWeight (b : UInt8) : Int :=
  if (Delimiter.ofOpener? b).isSome then 1 else if (Delimiter.ofCloser? b).isSome then -1 else 0

/-- How many more delimiters a text opens than it closes. -/
def weight (t : Text) : Int := (t.map byteWeight).sum

@[simp] theorem weight_nil : weight [] = 0 := rfl

@[simp] theorem weight_cons (b : UInt8) (t : Text) : weight (b :: t) = byteWeight b + weight t := rfl

@[simp] theorem weight_append (s t : Text) : weight (s ++ t) = weight s + weight t := by
  simp [weight]

theorem byteWeight_of_plain {b : UInt8} (h : Delimiter.plain b) : byteWeight b = 0 := by
  unfold byteWeight
  rw [Delimiter.ofOpener?_of_plain h, Delimiter.ofCloser?_of_plain h]
  rfl

theorem weight_of_plain (h : ∀ b ∈ t, Delimiter.plain b) : weight t = 0 := by
  induction t with
  | nil => rfl
  | cons b t ih =>
    rw [weight_cons, byteWeight_of_plain (h b mem_cons_self), ih fun c hc => h c (mem_cons_of_mem _ hc)]
    rfl

/-- Puts a text before the first of a list. -/
def glue (s : Text) : List Text → List Text
  | [] => [s]
  | t :: rest => (s ++ t) :: rest

/-- What stands between the commas at depth 0. -/
def stretches (depth : Int) : Text → List Text
  | [] => [[]]
  | b :: t =>
    if b == 44 && depth == 0 then [] :: stretches depth t
    else glue [b] (stretches (depth + byteWeight b) t)

theorem glue_glue (s t : Text) (xs : List Text) : glue s (glue t xs) = glue (s ++ t) xs := by
  cases xs <;> simp [glue]

theorem glue_nil (h : xs ≠ []) : glue [] xs = xs := by
  cases xs with
  | nil => exact absurd rfl h
  | cons x xs => rfl

theorem stretches_ne_nil (depth : Int) (t : Text) : stretches depth t ≠ [] := by
  cases t with
  | nil => exact nofun
  | cons b t =>
    unfold stretches
    split
    · exact nofun
    · cases stretches (depth + byteWeight b) t <;> exact nofun

theorem stretches_opener (d : Delimiter) (depth : Int) (t : Text) :
    stretches depth (d.opener :: t) = glue [d.opener] (stretches (depth + 1) t) := by
  cases d <;> rfl

theorem stretches_closer (d : Delimiter) (depth : Int) (t : Text) :
    stretches depth (d.closer :: t) = glue [d.closer] (stretches (depth - 1) t) := by
  cases d <;> rfl

/-- **The last stretch of a text goes on in what stands behind it.** -/
theorem stretches_append (depth : Int) (s : Text) : ∃ init last, stretches depth s = init ++ [last] ∧
      ∀ t, stretches depth (s ++ t) = init ++ glue last (stretches (depth + weight s) t) := by
  induction s generalizing depth with
  | nil => exact ⟨[], [], rfl, fun t => by
      rw [nil_append, nil_append, glue_nil (stretches_ne_nil _ _), weight_nil, Int.add_zero]⟩
  | cons b s ih =>
    simp only [stretches, cons_append]
    by_cases hcomma : b == 44 && depth == 0
    · obtain ⟨init, last, hs, happend⟩ := ih depth
      have hb : byteWeight b = 0 := by
        rw [Bool.and_eq_true, beq_iff_eq] at hcomma
        rw [hcomma.1]
        rfl
      refine ⟨[] :: init, last, by rw [if_pos hcomma, hs]; rfl, fun t => ?_⟩
      rw [if_pos hcomma, happend, weight_cons, hb, Int.zero_add]
      rfl
    · obtain ⟨init, last, hs, happend⟩ := ih (depth + byteWeight b)
      rw [if_neg hcomma, hs]
      simp only [if_neg hcomma, happend, weight_cons, Int.add_assoc]
      cases init with
      | nil => exact ⟨[], b :: last, rfl, fun t => glue_glue [b] last _⟩
      | cons first init => exact ⟨(b :: first) :: init, last, rfl, fun t => rfl⟩

theorem stretches_append_of_not_mem {depth : Int} {s : Text} (h : 44 ∉ s) (t : Text) :
    stretches depth (s ++ t) = glue s (stretches (depth + weight s) t) := by
  induction s generalizing depth with
  | nil => rw [nil_append, weight_nil, Int.add_zero, glue_nil (stretches_ne_nil _ _)]
  | cons b s ih =>
    rw [mem_cons, not_or] at h
    rw [cons_append, stretches, if_neg (by simp [Ne.symm h.1]), ih h.2, glue_glue, weight_cons, Int.add_assoc]
    rfl

theorem stretches_append_of_plain {depth : Int} (hdepth : depth ≠ 0) {s : Text}
    (h : ∀ b ∈ s, Delimiter.plain b)
    (t : Text) : stretches depth (s ++ t) = glue s (stretches depth t) := by
  induction s with
  | nil => rw [nil_append, glue_nil (stretches_ne_nil _ _)]
  | cons b s ih =>
    rw [cons_append, stretches, if_neg (by simp [hdepth]), byteWeight_of_plain (h b mem_cons_self),
      Int.add_zero, ih fun c hc => h c (mem_cons_of_mem _ hc), glue_glue]
    rfl

theorem stretches_eq_singleton {depth : Int} (h : 44 ∉ t) : stretches depth t = [t] := by
  have := @stretches_append_of_not_mem depth t h []
  rwa [append_nil, stretches, glue, append_nil] at this

theorem intercalate_stretches (depth : Int) (t : Text) : [44].intercalate (stretches depth t) = t := by
  induction t generalizing depth with
  | nil => rfl
  | cons b t ih =>
    rw [stretches]
    split
    · next hcomma =>
      rw [Bool.and_eq_true, beq_iff_eq] at hcomma
      obtain ⟨x, xs, hxs⟩ := exists_cons_of_ne_nil (stretches_ne_nil depth t)
      rw [hxs, intercalate_cons_cons, ← hxs, ih, hcomma.1]
      rfl
    · have hglue : ∀ xs : List Text, xs ≠ [] → [44].intercalate (glue [b] xs) = b :: [44].intercalate xs := by
        intro xs hxs
        rcases xs with _ | ⟨x, _ | ⟨y, ys⟩⟩
        · exact absurd rfl hxs
        · simp [glue]
        · rw [glue, intercalate_cons_cons, intercalate_cons_cons]
          rfl
      rw [hglue _ (stretches_ne_nil _ _), ih]

theorem subset_of_mem_stretches {depth : Int} {x : Text} (h : x ∈ stretches depth t) : x ⊆ t := by
  have hmem : ∀ {xs : List Text}, x ∈ xs → x ⊆ [44].intercalate xs := by
    intro xs hx
    induction xs with
    | nil => cases hx
    | cons y ys ih =>
      cases ys with
      | nil =>
        rw [mem_singleton.mp hx, intercalate_singleton]
        exact List.Subset.refl _
      | cons z zs =>
        rw [intercalate_cons_cons]
        rcases mem_cons.mp hx with rfl | hx
        · exact fun b hb => mem_append_left _ (mem_append_left _ hb)
        · exact fun b hb => mem_append_right _ (ih hx hb)
  rw [← intercalate_stretches depth t]
  exact hmem h

/-- The ranges of texts that stand from offset `i` on with commas between them, the first of them begun at
`start`. -/
def spread (start i : Nat) : List Text → List Range
  | [] => []
  | t :: rest => ⟨start, i + t.length⟩ :: spread (i + t.length + 1) (i + t.length + 1) rest

theorem spread_glue (start i : Nat) (b : UInt8) (h : xs ≠ []) :
    spread start i (glue [b] xs) = spread start (i + 1) xs := by
  cases xs with
  | nil => exact absurd rfl h
  | cons x xs =>
    have hlength : i + ([b] ++ x).length = i + 1 + x.length := by
      rw [length_append, length_singleton]
      omega
    simp only [glue, spread, hlength]

theorem commaStretches_cons (depth : Int) (start i : Nat) (b : UInt8) (t : Text) :
    commaStretches depth start i (b :: t) =
    if b == 44 && depth == 0 then ⟨start, i⟩ :: commaStretches depth (i + 1) (i + 1) t
    else commaStretches (depth + byteWeight b) start (i + 1) t := by
  have hcomma : (Delimiter.ofOpener? b).isSome ∨ (Delimiter.ofCloser? b).isSome → (b == 44) = false := by
    intro h
    rw [beq_eq_false_iff_ne]
    rintro rfl
    rcases h with h | h <;> cases h
  rw [commaStretches, byteWeight]
  by_cases hopen : (Delimiter.ofOpener? b).isSome
  · simp [hopen, hcomma (.inl hopen)]
  · by_cases hclose : (Delimiter.ofCloser? b).isSome
    · simp [hopen, hclose, hcomma (.inr hclose), Int.sub_eq_add_neg]
    · simp [hopen, hclose]

theorem stop_le_of_mem_commaStretches {depth : Int} {start i : Nat} :
    ∀ r ∈ commaStretches depth start i t, r.stop ≤ i + t.length := by
  induction t generalizing depth start i with
  | nil => exact forall_mem_singleton.mpr (Nat.le_refl i)
  | cons b t ih =>
    rw [commaStretches_cons, length_cons, Nat.add_comm t.length, ← Nat.add_assoc]
    split
    · exact forall_mem_cons.mpr ⟨by dsimp only; omega, ih⟩
    · exact ih

theorem commaStretches_eq (depth : Int) (start i : Nat) (t : Text) :
    commaStretches depth start i t = spread start i (stretches depth t) := by
  induction t generalizing depth start i with
  | nil => rfl
  | cons b t ih =>
    rw [commaStretches_cons, stretches]
    split
    · rw [ih]
      rfl
    · rw [ih, spread_glue _ _ _ (stretches_ne_nil _ _)]

/-- The ranges of texts that stand from offset `i` on with commas between them, without the blanks
around the texts. -/
def trimmed (i : Nat) : List Text → List Range
  | [] => []
  | t :: rest => ⟨i + t.leadingBlanks, i + t.core.length⟩ :: trimmed (i + t.length + 1) rest

theorem mapM_trimRange_spread (pre post : Text) (xs : List Text) :
    (spread pre.length pre.length xs).mapM (pre ++ [44].intercalate xs ++ post).trimRange =
      .ok (trimmed pre.length xs) := by
  induction xs generalizing pre with
  | nil => rfl
  | cons x xs ih =>
    cases xs with
    | nil =>
      rw [intercalate_singleton, spread, spread, trimmed, trimmed, mapM_cons, mapM_nil, trimRange_append]
      rfl
    | cons y ys =>
      have hfirst := trimRange_append pre x (44 :: [44].intercalate (y :: ys) ++ post)
      have hlength : (pre ++ x ++ [44]).length = pre.length + x.length + 1 := by simp [Nat.add_assoc]
      have hrest := ih (pre ++ x ++ [44])
      rw [hlength] at hrest
      have hsplit : pre ++ [44].intercalate (x :: y :: ys) ++ post =
          pre ++ x ++ (44 :: [44].intercalate (y :: ys) ++ post) := by
        rw [intercalate_cons_cons]
        simp
      have hsplit' : pre ++ x ++ (44 :: [44].intercalate (y :: ys) ++ post) =
          pre ++ x ++ [44] ++ [44].intercalate (y :: ys) ++ post := by simp
      rw [spread, trimmed, mapM_cons, hsplit, hfirst, hsplit', hrest]
      rfl

end Text

/-- Leaves out a single empty range. -/
def Nest.present : List Range → List Range
  | [only] => if only.isEmpty then [] else [only]
  | ranges => ranges

namespace Text

theorem splitArgs_eq (pre t post : Text) (b : UInt8) :
    (pre ++ b :: (t ++ post)).splitArgs pre.length (pre.length + 1 + t.length) =
      .ok (Nest.present (trimmed (pre.length + 1) (stretches 0 t))) := by
  unfold splitArgs
  by_cases hempty : t = []
  · subst hempty
    rw [if_pos (by simp)]
    simp [stretches, trimmed, Nest.present, leadingBlanks, core, Range.isEmpty]
  have hpos := length_pos_iff.mpr hempty
  have hcut : (pre ++ b :: (t ++ post)).cut ⟨pre.length + 1, pre.length + 1 + t.length⟩ = t := by
    have := cut_append (pre ++ [b]) t post
    simpa [Nat.add_assoc] using this
  have hranges := mapM_trimRange_spread (pre ++ [b]) post (stretches 0 t)
  rw [intercalate_stretches] at hranges
  simp only [length_append, length_singleton, append_assoc, cons_append, nil_append] at hranges
  rw [if_neg (by omega), if_neg (by simp; omega), hcut, commaStretches_eq, hranges]
  rfl

theorem present_trimmed (i : Nat) (t : Text) :
    Nest.present (trimmed i (stretches 0 t)) = if t.all isBlank then [] else trimmed i (stretches 0 t) := by
  rcases hsegs : stretches 0 t with _ | ⟨x, _ | ⟨y, ys⟩⟩
  · exact absurd hsegs (stretches_ne_nil 0 t)
  · have hx := intercalate_stretches 0 t
    rw [hsegs, intercalate_singleton] at hx
    rw [trimmed, trimmed, Nest.present, isEmpty_trimmed, hx]
  · have hblank : ¬ t.all isBlank := by
      intro hall
      have hcomma : 44 ∉ t := fun hmem => absurd (all_eq_true.mp hall 44 hmem) (by decide)
      rw [stretches_eq_singleton hcomma] at hsegs
      cases hsegs
    rw [if_neg hblank]
    rfl

/-- **The arguments between two delimiters** are the stretches of what stands there. -/
theorem splitArgs_list (pre t post : Text) (b c : UInt8) :
    (pre ++ b :: (t ++ c :: post)).splitArgs pre.length (pre.length + 1 + t.length) =
      .ok (if t.all isBlank then [] else trimmed (pre.length + 1) (stretches 0 t)) := by
  rw [splitArgs_eq, present_trimmed]

end Text

end GlslToMetal
