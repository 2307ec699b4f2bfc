import GlslToMetal.Proofs.Checked
import GlslToMetal.Proofs.Text.Rewriting
import GlslToMetal.Proofs.Text.Stretches

/-! Where an argument list is cut. The commas outside of delimiters separate its arguments, one more
than there are such commas, and every byte of the list that is in no argument is one of them or a blank.
The delimiters in the list need not match: what counts is how many more are opened than closed before a
comma. -/

namespace GlslToMetal.Text

open List

variable {closed i k opened start : Nat} {args : List Range} {outer r : Range} {t : Text}

theorem exists_of_within (h : r.Within t.length) :
    ∃ pre x post, t = pre ++ x ++ post ∧ r = ⟨pre.length, pre.length + x.length⟩ := by
  have hpre : (t.take r.start).length = r.start := length_take_of_le (Nat.le_trans h.1 h.2)
  have hcut : (t.cut r).length = r.stop - r.start := by
    rw [cut, length_take_of_le (by have := h.2; rw [length_drop]; omega)]
  refine ⟨t.take r.start, t.cut r, t.drop r.stop, ?_, ?_⟩
  · rw [append_assoc, ← drop_start h.1, take_append_drop]
  · rw [hpre, hcut, Nat.add_sub_cancel' h.1]

/-- The second range is the first without the blanks at its ends: it is empty, or it begins and ends
with a byte that is no blank. -/
structure Trims (t : Text) (outer r : Range) : Prop where
  start_le : outer.start ≤ r.start
  le : r.start ≤ r.stop
  stop_le : r.stop ≤ outer.stop
  before : (t.cut ⟨outer.start, r.start⟩).all isBlank
  behind : (t.cut ⟨r.stop, outer.stop⟩).all isBlank
  solid : r.start = r.stop ∨ StartsSolid (t.cut r) ∧ EndsSolid (t.cut r)

theorem returns_trimRange (h : outer.Within t.length) : (t.trimRange outer).Returns (Trims t outer) := by
  obtain ⟨pre, x, post, rfl, rfl⟩ := exists_of_within h
  refine ⟨_, trimRange_append pre x post, ?_⟩
  by_cases hall : x.all isBlank
  · have hcore : x.core = x := if_pos hall
    rw [leadingBlanks_of_all hall, hcore]
    refine ⟨Nat.le_add_right _ _, Nat.le_refl _, Nat.le_refl _, by rwa [cut_append], ?_, .inl rfl⟩
    simp [cut]
  · obtain ⟨hx, hcore, hne⟩ := eq_strip_append hall
    have hcut := cut_trimmed pre x post
    obtain ⟨hhead, hlast⟩ := strip_eq_self_iff.mp (strip_strip x)
    generalize hstrip : x.strip = s at *
    generalize hfront : x.takeWhile isBlank = a at *
    have ha : a.all isBlank := hfront ▸ all_takeWhile
    have hz := all_blankTail x
    generalize x.blankTail = z at *
    have hlead : x.leadingBlanks = a.length := by rw [leadingBlanks, hfront]
    rw [hlead, hcore] at hcut ⊢
    subst hx
    refine ⟨Nat.le_add_right _ _, by simp, by simp, ?_, ?_, .inr ?_⟩
    · have := cut_append pre a (s ++ z ++ post)
      simp only [append_assoc] at this ⊢
      rwa [this]
    · have := cut_append (pre ++ (a ++ s)) z post
      simp only [append_assoc, length_append, Nat.add_assoc] at this ⊢
      rwa [this]
    · rw [hcut]
      obtain ⟨b, rest, rfl⟩ := exists_cons_of_ne_nil hne
      exact ⟨⟨b, rfl, hhead b rfl⟩, _, getLast?_eq_some_getLast hne, hlast _ (getLast?_eq_some_getLast hne)⟩

theorem Trims.isEmpty (h : Trims t outer r) : r.isEmpty = (t.cut outer).all isBlank := by
  have hcut : t.cut outer = t.cut ⟨outer.start, r.start⟩ ++ t.cut r ++ t.cut ⟨r.stop, outer.stop⟩ := by
    rw [cut_append_cut t h.start_le h.le, cut_append_cut t (Nat.le_trans h.start_le h.le) h.stop_le]
  rw [hcut, all_append, all_append, h.before, h.behind, Bool.true_and, Bool.and_true]
  rcases h.solid with heq | ⟨⟨b, hb, hsolid⟩, -⟩
  · simp [Range.isEmpty, cut, heq]
  · have hlt : r.start < r.stop := by
      refine Nat.lt_of_le_of_ne h.le fun heq => ?_
      simp [cut, heq] at hb
    rw [Range.isEmpty, decide_eq_false (by omega)]
    refine (all_eq_false.mpr ⟨b, mem_of_head? hb, by simp [hsolid]⟩).symm

/-- A comma outside of the delimiters that are opened behind offset `opened`. -/
def separates (t : Text) (opened k : Nat) : Bool := t[k]? == some 44 && weight (t.cut ⟨opened + 1, k⟩) == 0

/-- The separators of a list from offset `i` on. -/
def separators (t : Text) (opened closed i : Nat) : List Nat :=
  (List.range' i (closed - i)).filter (t.separates opened)

/-- The arguments of a list from offset `i` on: one up to each separator and one behind the last, each
without the blanks around it. -/
inductive Arranged (t : Text) (opened closed : Nat) : Nat → List Range → Prop where
  | last {i : Nat} {r : Range} : Trims t ⟨i, closed⟩ r →
    (∀ j, i ≤ j → j < closed → t.separates opened j = false) →
      Arranged t opened closed i [r]
  | cons {i k : Nat} {r : Range} {rest : List Range} : Trims t ⟨i, k⟩ r →
      (∀ j, i ≤ j → j < k → t.separates opened j = false) → k < closed → t.separates opened k →
      Arranged t opened closed (k + 1) rest → Arranged t opened closed i (r :: rest)

theorem separators_eq_nil (h : ∀ j, i ≤ j → j < closed → t.separates opened j = false) :
    t.separators opened closed i = [] := by
  refine filter_eq_nil_iff.mpr fun j hj => ?_
  obtain ⟨hle, hlt⟩ := mem_range'_1.mp hj
  rw [h j hle (by omega)]
  exact Bool.false_ne_true

theorem Arranged.length (h : Arranged t opened closed i args) :
    args.length = (t.separators opened closed i).length + 1 := by
  induction h with
  | last _ hnone => rw [separators_eq_nil hnone]; rfl
  | @cons i k r rest htrims hnone hk hsep _ ih =>
    have hik := Nat.le_trans htrims.start_le (Nat.le_trans htrims.le htrims.stop_le)
    dsimp only at hik
    have hrange : List.range' i (closed - i) = List.range' i (k - i) ++
        k :: List.range' (k + 1) (closed - (k + 1)) := by
      rw [show closed - i = k -
        i + (closed - (k + 1) + 1) by
          omega, ← range'_append_1, Nat.add_sub_cancel' hik, range'_succ]
    have hbefore : (List.range' i (k - i)).filter (t.separates opened) = [] := separators_eq_nil hnone
    rw [length_cons, ih, separators, separators, hrange, filter_append, hbefore, filter_cons_of_pos hsep]
    rfl

/-- The stretches that a scan cuts off, trimmed, from the stretch that began at `start` on. -/
theorem arranged_commaStretches (hclosed : closed ≤ t.length) {rest : Text} {depth : Int}
    (hopened : opened < i)
    (hrest : t.cut ⟨i, closed⟩ = rest) (hi : i ≤ closed) (hdepth : weight (t.cut ⟨opened + 1, i⟩) = depth)
    (hstart : start ≤ i) (hnone : ∀ j, start ≤ j → j < i → t.separates opened j = false) :
    ((commaStretches depth start i rest).mapM t.trimRange).Returns (Arranged t opened closed start) := by
  induction rest generalizing depth i start with
  | nil =>
    obtain rfl : i = closed := by
      have := congrArg List.length hrest
      rw [cut, length_take, length_drop, length_nil] at this
      dsimp only at this
      omega
    refine (returns_trimRange ⟨hstart, hclosed⟩).bind fun r hr => Checked.returns_pure ?_
    exact .last hr hnone
  | cons b rest ih =>
    have hlt : i < closed := by
      by_contra hge
      rw [cut, show closed - i = 0 by omega] at hrest
      cases hrest
    have hget : t[i]? = some b := by
      have hhead := congrArg List.head? hrest
      rwa [cut, head?_take, if_neg (by dsimp only; omega), head?_drop] at hhead
    rw [cut_of_getElem? hget hlt, cons.injEq] at hrest
    have hweight : weight (t.cut ⟨opened + 1, i + 1⟩) = depth + byteWeight b := by
      rw [← cut_append_cut t hopened (Nat.le_succ i), cut_of_getElem? hget (Nat.lt_succ_self i),
        weight_append, hdepth]
      simp [cut]
    have hsep : t.separates opened i = (b == 44 && depth == 0) := by
      rw [separates, hget, hdepth]
      rfl
    rw [commaStretches_cons, ← hsep]
    split
    · next hseparates =>
      have hb : byteWeight b = 0 := by
        rw [hsep, Bool.and_eq_true, beq_iff_eq] at hseparates
        rw [hseparates.1]
        rfl
      rw [mapM_cons]
      refine (returns_trimRange ⟨hstart, by dsimp only; omega⟩).bind fun r hr => ?_
      refine (ih (by omega) hrest.2 hlt (by rw [hweight, hb, Int.add_zero]) (Nat.le_refl _)
        (fun j hle hlt => by omega)).bind fun rest hrest => Checked.returns_pure ?_
      exact .cons hr hnone hlt hseparates hrest
    · next hpasses =>
      refine ih (by omega) hrest.2 hlt hweight (by omega) fun j hle hj => ?_
      rcases Nat.lt_succ_iff_lt_or_eq.mp hj with hj | rfl
      · exact hnone j hle hj
      · exact Bool.not_eq_true _ ▸ hpasses

theorem Arranged.bounds (h : Arranged t opened closed i args) :
    ∀ r ∈ args, i ≤ r.start ∧ r.start ≤ r.stop ∧ r.stop ≤ closed := by
  induction h with
  | last htrims => exact forall_mem_singleton.mpr ⟨htrims.start_le, htrims.le, htrims.stop_le⟩
  | cons htrims _ hk _ _ ih =>
    obtain ⟨hstart, hle, hstop, -⟩ := htrims
    dsimp only at hstart hstop
    refine forall_mem_cons.mpr ⟨by omega, fun r hr => ?_⟩
    have := ih r hr
    omega

theorem Arranged.pairwise (h : Arranged t opened closed i args) : args.Pairwise (·.stop < ·.start) := by
  induction h with
  | last => exact pairwise_singleton _ _
  | cons htrims _ _ _ hrest ih =>
    exact .cons (fun r hr => Nat.lt_of_le_of_lt htrims.stop_le (hrest.bounds r hr).1) ih

/-- **The arguments of a list are arranged between its separators**, unless the list is blank. -/
theorem splitArgs_arranged (hopened : opened < closed) (hclosed : closed ≤ t.length) :
    ∃ args, Arranged t opened closed (opened + 1) args ∧
      t.splitArgs opened closed = .ok (if (t.cut ⟨opened + 1, closed⟩).all isBlank then [] else args) := by
  obtain ⟨args, hargs, harranged⟩ :=
    @arranged_commaStretches closed (opened + 1) opened (opened + 1) t hclosed _ 0
    (Nat.lt_succ_self opened) rfl hopened (by simp [cut]) (Nat.le_refl _) (fun j hle hlt => by omega)
  have hpresent : Nest.present args = if (t.cut ⟨opened + 1, closed⟩).all isBlank then [] else args := by
    cases harranged with
    | last htrims => rw [← htrims.isEmpty, Nest.present]
    | @cons _ k r rest htrims _ hk hsep hrest =>
      rw [separates, Bool.and_eq_true, beq_iff_eq] at hsep
      have hle := Nat.le_trans htrims.start_le (Nat.le_trans htrims.le htrims.stop_le)
      dsimp only at hle
      have hcomma : 44 ∈ t.cut ⟨opened + 1, closed⟩ := by
        refine mem_of_getElem? (i := k - (opened + 1)) ?_
        rw [cut, getElem?_take_of_lt (by dsimp only; omega), getElem?_drop, Nat.add_sub_cancel' hle, hsep.1]
      rw [all_eq_false.mpr ⟨44, hcomma, by decide⟩]
      cases hrest <;> rfl
  have hsplit : t.splitArgs opened closed = .ok (Nest.present args) := by
    unfold splitArgs
    split
    · next hempty =>
      have hblank : (t.cut ⟨opened + 1, closed⟩).all isBlank := by
        rw [cut, show closed - (opened + 1) = 0 by omega]
        rfl
      rw [hpresent, if_pos hblank]
    · rw [if_neg (Nat.not_lt.mpr hclosed), hargs]
      rfl
  exact ⟨args, harranged, hpresent ▸ hsplit⟩

theorem returns_splitArgs (hclosed : closed ≤ t.length) : (t.splitArgs opened closed).Returns fun args =>
    (∀ r ∈ args, opened < r.start ∧ r.start ≤ r.stop ∧ r.stop ≤ closed) ∧
      args.Pairwise (·.stop < ·.start) := by
  by_cases hopened : opened < closed
  · obtain ⟨args, harranged, hargs⟩ := splitArgs_arranged hopened hclosed
    refine ⟨_, hargs, ?_⟩
    split
    · exact ⟨forall_mem_nil _, .nil⟩
    · exact ⟨harranged.bounds, harranged.pairwise⟩
  · exact ⟨[], if_pos (by omega), forall_mem_nil _, .nil⟩

/-- **An argument list is cut at its separators**: a blank list has no arguments, and any other has one
more than separators. Between two arguments stand one separator and blanks, and before the first and
behind the last blanks only; no separator stands in an argument, and an argument that is not empty
begins and ends with a byte that is no blank. -/
theorem splitArgs_cuts_at_separators {opened closed : Nat} {t : Text} (hopened : opened < closed)
    (hclosed : closed ≤ t.length) :
    ((t.cut ⟨opened + 1, closed⟩).all isBlank → t.splitArgs opened closed = .ok []) ∧
    (¬ (t.cut ⟨opened + 1, closed⟩).all isBlank → ∃ args, t.splitArgs opened closed = .ok args ∧
      args.length = (t.separators opened closed (opened + 1)).length + 1 ∧
      Arranged t opened closed (opened + 1) args) := by
  obtain ⟨args, harranged, hsplit⟩ := splitArgs_arranged hopened hclosed
  refine ⟨fun hblank => ?_, fun hblank => ⟨args, ?_, harranged.length, harranged⟩⟩
  · rw [hsplit, if_pos hblank]
  · rw [hsplit, if_neg hblank]

/-- A list with an empty argument, a comma inside delimiters, and one behind a stray closer. -/
theorem splitArgs_cuts_at_separators_stray :
    let t : Text := "( ,f(a,b), ]c, )"
    0 < 15 ∧ 15 ≤ t.length ∧ ∃ args, t.splitArgs 0 15 = .ok args ∧
      args.length = (t.separators 0 15 1).length + 1 ∧
      args.length = 3 ∧ Arranged t 0 15 1 args := by
  intro t
  have hfacts : 15 ≤ t.length ∧ ¬ (t.cut ⟨1, 15⟩).all isBlank ∧ (t.separators 0 15 1).length = 2 := by
    simp only [t]
    rw [ofString_ofList]
    decide +kernel
  obtain ⟨hlength, hblank, hcount⟩ := hfacts
  obtain ⟨args, hargs, hseparators, harranged⟩ :=
    (@splitArgs_cuts_at_separators 0 15 t (by decide) hlength).2 hblank
  exact ⟨by decide, hlength, args, hargs, hseparators, hseparators.trans (congrArg (· + 1) hcount), harranged⟩

end GlslToMetal.Text
