import GlslToMetal.Proofs.Text.Comments
import GlslToMetal.Text.Span
import Mathlib.Data.List.DropRight
import Mathlib.Data.Prod.Lex

/-! Lines and columns as coordinates. The line of an offset is counted forward and its column backward,
to the newline before it. Together they give the offset back, which lies behind the start of the line by
one less than the column. So the coordinates of offsets differ, they grow with the offset, line first,
and they depend on nothing but the places of the newlines, which masking keeps. -/

namespace GlslToMetal

namespace Text

open List

variable {t u : Text}

/-- Where a line begins, lines counted from zero: the first at the start, each other just behind a newline. -/
def lineStart (t : Text) : Nat → Nat
  | 0 => 0
  | n + 1 => t.idxOfNth newline n + 1

/-- Behind whole lines a line begins. -/
theorem lineStart_append (h : t = [] ∨ ∃ l, t = l ++ [newline]) (u : Text) :
    (t ++ u).lineStart (t.count newline) = t.length := by
  rcases h with rfl | ⟨l, rfl⟩
  · rfl
  · have hcount : (l ++ [newline]).count newline =
        (l ++ [newline] ++ u).countBefore newline l.length + 1 := by
      rw [countBefore_eq_count_take, append_assoc, take_left, count_append, count_singleton_self]
    have hbyte : (l ++ [newline] ++ u)[l.length]? = some newline := by simp
    obtain ⟨hlt, hget⟩ := List.getElem?_eq_some_iff.mp hbyte
    rw [hcount, lineStart, idxOfNth_countBefore_of_lt_length_of_beq (h := hlt) (by rw [hget]; rfl),
      length_append]
    rfl

/-- What is left of a text without what stands behind its last newline is whole lines. -/
theorem wholeLines_rdropWhile (t : Text) :
    t.rdropWhile (· != newline) = [] ∨ ∃ l, t.rdropWhile (· != newline) = l ++ [newline] := by
  by_cases hne : t.rdropWhile (· != newline) = []
  · exact .inl hne
  · have hlast := rdropWhile_last_not _ _ hne
    simp only [bne_iff_ne, ne_eq, Decidable.not_not] at hlast
    have hsplit := dropLast_concat_getLast hne
    rw [hlast] at hsplit
    exact .inr ⟨_, hsplit.symm⟩

/-- A line and a column, both counted from one, lead to an offset: there is such a line, the offset lies
behind its start by one less than the column, and no newline stands between the two. -/
structure Locates (t : Text) (c : Nat × Nat) (i : Nat) : Prop where
  line : 0 < c.1 ∧ c.1 ≤ t.count newline + 1
  column : 0 < c.2
  offset : t.lineStart (c.1 - 1) + (c.2 - 1) = i
  sameLine : ∀ k, t.lineStart (c.1 - 1) ≤ k → k < i → t[k]? ≠ some newline

theorem locates_append {lines rest : Text} (hlines : lines = [] ∨ ∃ l, lines = l ++ [newline])
    (hrest : newline ∉ rest)
    (u : Text) :
    (lines ++ rest ++ u).Locates ((lines ++ rest).count newline + 1, rest.length + 1)
      (lines ++ rest).length := by
  have hcount : (lines ++ rest).count newline = lines.count newline := by
    rw [count_append, count_eq_zero.mpr hrest, Nat.add_zero]
  have hstart := lineStart_append hlines (rest ++ u)
  rw [← append_assoc, ← hcount] at hstart
  refine ⟨⟨Nat.succ_pos _, ?_⟩, Nat.succ_pos _, ?_, fun k hle hlt => ?_⟩
  · exact Nat.succ_le_succ ((sublist_append_left _ u).count_le newline)
  · simp only [Nat.add_sub_cancel, hstart, length_append]
  · simp only [Nat.add_sub_cancel, hstart] at hle
    rw [getElem?_append_left hlt, getElem?_append_right hle]
    exact fun h => hrest (mem_of_getElem? h)

/-- The newlines of a text stay where they are when it is masked. -/
theorem map_newline_mask (t : Text) : t.mask.map (· == newline) = t.map (· == newline) := by
  rw [mask_eq_mapIdx]
  refine ext_getElem? fun i => ?_
  rw [getElem?_map, getElem?_map, getElem?_mapIdx]
  cases t[i]? with
  | none => rfl
  | some b =>
    simp only [Option.map_some, Option.some.injEq]
    split
    · next hcomment =>
      simp only [Bool.and_eq_true, bne_iff_ne] at hcomment
      rw [beq_eq_false_iff_ne.mpr hcomment.2]
      rfl
    · rfl

end Text

namespace Span

open List Text

variable {t u : Text} {s s' : Span}

theorem lineColumn_eq (s : Span) (t : Text) : s.lineColumn t = ((t.take s.lo.toNat).count newline + 1,
    ((t.take s.lo.toNat).rtakeWhile (· != newline)).length + 1) := by
  rw [lineColumn, rtakeWhile, length_reverse]

/-- The coordinates of an offset lead back to it. -/
theorem locates_lineColumn (s : Span) (t : Text) : t.Locates (s.lineColumn t) (min s.lo.toNat t.length) := by
  have hfree : newline ∉ (t.take s.lo.toNat).rtakeWhile (· != newline) := fun h => by
    simpa using mem_rtakeWhile_imp h
  have h := locates_append (wholeLines_rdropWhile (t.take s.lo.toNat)) hfree (t.drop s.lo.toNat)
  rw [rdropWhile_append_rtakeWhile, take_append_drop] at h
  rwa [lineColumn_eq, ← length_take]

theorem lineColumn_strictMono (hlt : s.lo < s'.lo) (hs' : s'.lo.toNat ≤ t.length) :
    toLex (s.lineColumn t) < toLex (s'.lineColumn t) := by
  have hlt := UInt32.lt_iff_toNat_lt.mp hlt
  have h := s.locates_lineColumn t
  have h' := s'.locates_lineColumn t
  rw [Prod.Lex.toLex_lt_toLex']
  constructor
  · rw [lineColumn_eq, lineColumn_eq]
    have hprefix : t.take s.lo.toNat <+: t.take s'.lo.toNat := take_prefix_take_left (Nat.le_of_lt hlt)
    have := hprefix.sublist.count_le newline
    simpa using this
  · intro hline
    have hoffset := h.offset
    have hoffset' := h'.offset
    have := h.column
    rw [hline] at hoffset
    omega

/-- Coordinates depend on nothing but the places of the newlines. -/
theorem lineColumn_congr (h : t.map (· == newline) = u.map (· == newline)) (s : Span) :
    s.lineColumn t = s.lineColumn u := by
  have hline : ∀ v : Text, (v.take s.lo.toNat).count newline =
      ((v.map (· == newline)).take s.lo.toNat).countP id := by
    intro v
    rw [← map_take, countP_map]
    rfl
  have hcolumn : ∀ v : Text, ((v.take s.lo.toNat).reverse.takeWhile (· != newline)).length =
      (((v.map (· == newline)).take s.lo.toNat).reverse.takeWhile (!·)).length := by
    intro v
    rw [← map_take, ← map_reverse, takeWhile_map, length_map]
    rfl
  simp only [lineColumn, hline, hcolumn, h]

/-- **Line and column are an exact coordinate that keeps the order.** The line's start and the column
give the offset back, the end of the text for an offset behind it; on the offsets of the text, different
offsets have different coordinates and a greater offset has greater ones, by line and then by column;
and the coordinates in the masked text are the same. -/
theorem lineColumn_exact (source : Text) :
    (∀ s : Span, source.Locates (s.lineColumn source) (min s.lo.toNat source.length)) ∧
      (∀ s s' : Span, s.lo.toNat ≤ source.length → s'.lo.toNat ≤ source.length →
        (s.lineColumn source = s'.lineColumn source → s.lo = s'.lo) ∧
          (s.lo < s'.lo → toLex (s.lineColumn source) < toLex (s'.lineColumn source))) ∧
      ∀ s : Span, s.lineColumn source.mask = s.lineColumn source := by
  refine ⟨fun s => s.locates_lineColumn source, fun s s' hs hs' => ⟨fun heq => ?_, fun hlt => ?_⟩,
    fun s => ?_⟩
  · have hoffset := (s.locates_lineColumn source).offset
    have hoffset' := (s'.locates_lineColumn source).offset
    rw [heq, hoffset', Nat.min_eq_left hs, Nat.min_eq_left hs'] at hoffset
    exact (UInt32.toNat_inj.mp hoffset).symm
  · exact lineColumn_strictMono hlt hs'
  · exact lineColumn_congr (map_newline_mask source) s

/-- A newline inside a comment, an empty line and an offset far behind the end, in `a/*⏎é*/⏎⏎b`. -/
theorem lineColumn_exact_commented :
    let source : Text := [97, 47, 42, 10, 195, 169, 42, 47, 10, 10, 98]
    let s : Span := ⟨3, 4⟩
    let s' : Span := ⟨10, 11⟩
    let beyond : Span := ⟨4000000000, 4000000001⟩
    (s.lo.toNat ≤ source.length ∧ s'.lo.toNat ≤ source.length ∧ s.lo < s'.lo) ∧
      (s.lineColumn source = (1, 4) ∧ s'.lineColumn source = (4, 1) ∧ beyond.lineColumn source = (4, 2)) ∧
      toLex (s.lineColumn source) < toLex (s'.lineColumn source) ∧
        source.Locates (beyond.lineColumn source) 11 ∧
      s'.lineColumn source.mask = s'.lineColumn source := by
  intro source s s' beyond
  obtain ⟨hexact, horder, hmask⟩ := lineColumn_exact source
  have hbounds : s.lo.toNat ≤ source.length ∧ s'.lo.toNat ≤ source.length ∧ s.lo < s'.lo := by decide
  exact ⟨hbounds, by decide, (horder s s' hbounds.1 hbounds.2.1).2 hbounds.2.2, hexact beyond, hmask s'⟩

end Span

end GlslToMetal
