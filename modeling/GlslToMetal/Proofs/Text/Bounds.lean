import GlslToMetal.Call
import GlslToMetal.Pattern
import GlslToMetal.Proofs.Outline
import GlslToMetal.Proofs.Text.Separators

/-! Offsets inside a text. Every range that a scan finds has its ends in order and inside the text
that was scanned, whatever the text is. So in ASCII, where every offset lies between two characters,
no cut at such a range fails, and edits of such ranges can be applied. -/

namespace GlslToMetal

open List

variable {item : Item} {edits : List Edit} {i n : Nat} {r : Range} {t : Text}

namespace Text

theorem length_cut_le (t : Text) (r : Range) : (t.cut r).length ≤ r.stop - r.start := by
  rw [cut, length_take]
  exact Nat.min_le_left _ _

theorem leadingBlanks_le (t : Text) : t.leadingBlanks ≤ t.length :=
  (takeWhile_sublist _).length_le

theorem slice_of_within (h : t.IsAscii) (hr : r.Within t.length) : t.slice r = .ok (t.cut r) :=
  slice_of_isAscii h hr.1 hr.2

theorem returns_slice (h : t.IsAscii) (hr : r.Within t.length) :
    (t.slice r).Returns (· = t.cut r) := ⟨_, slice_of_within h hr, rfl⟩

theorem matching?_bounds {j : Nat} (h : t.matching? i = some j) : i < j ∧ j < t.length := by
  unfold matching? at h
  split at h
  · cases h
  · next b rest hdrop =>
    simp only [bind, Option.bind_eq_some_iff, pure, Option.some.injEq] at h
    obtain ⟨d, -, n, hn, rfl⟩ := h
    have hlen := congrArg length hdrop
    have := Delimiter.toCloser_lt hn
    rw [length_drop, length_cons] at hlen
    omega

theorem returns_previousWord (h : i ≤ t.length) : (t.previousWord i).Returns fun _ => True := by
  unfold previousWord
  rw [if_neg (by omega)]
  exact ⟨_, rfl, trivial⟩

end Text

theorem Call.bounds_of_mem_sites {masked name : Text} {c : Call} (h : c ∈ sites masked name) :
    c.nameRange.start ≤ c.nameRange.stop ∧ c.nameRange.stop ≤ c.openParen ∧ c.openParen < masked.length := by
  obtain ⟨i, -, hc⟩ := mem_filterMap.mp h
  obtain ⟨o, ho, rfl⟩ := Option.map_eq_some_iff.mp hc
  unfold openParen? at ho
  split at ho
  · cases ho
  obtain ⟨hnext, hparen⟩ := Option.filter_eq_some_iff.mp ho
  rw [beq_iff_eq] at hparen
  have hlt : o < masked.length := (List.getElem?_eq_some_iff.mp hparen).1
  unfold Text.nextNonBlank? at hnext
  dsimp only at hnext
  split at hnext
  · cases hnext
    exact ⟨Nat.le_add_right _ _, Nat.le_add_right _ _, hlt⟩
  · cases hnext

namespace Pattern

theorem exists_of_mem_matchesFrom {p : Pattern} {before : Option Char} {skip : Nat} {cs : List Char}
    (h : r ∈ matchesFrom p before i skip cs) :
    ∃ a b c, cs = a ++ b ++ c ∧ r = ⟨i + width a, i + width a + width b⟩ := by
  induction cs generalizing before i skip with
  | nil => cases h
  | cons c cs ih =>
    have hlater : ∀ {before : Option Char} {skip : Nat}, r ∈ matchesFrom p before (i + c.utf8Size) skip cs →
        ∃ a b z, c :: cs = a ++ b ++ z ∧ r = ⟨i + width a, i + width a + width b⟩ := by
      intro before skip hr
      obtain ⟨a, b, z, rfl, rfl⟩ := ih hr
      refine ⟨c :: a, b, z, rfl, ?_⟩
      simp only [width, Nat.add_assoc]
    unfold matchesFrom at h
    dsimp only at h
    split at h
    · exact hlater h
    split at h
    · exact hlater h
    · next tail _ =>
      rcases mem_cons.mp h with rfl | h
      · exact ⟨[], (c :: cs).take (cs.length + 1 - tail.length), (c :: cs).drop _,
          by rw [nil_append, take_append_drop], rfl⟩
      · exact hlater h

theorem width_append (a b : List Char) : width (a ++ b) = width a + width b := by
  induction a with
  | nil => simp [width]
  | cons c a ih => simp only [cons_append, width, ih, Nat.add_assoc]

theorem length_ofChars (cs : List Char) : (Text.ofChars cs).length = width cs := by
  induction cs with
  | nil => rfl
  | cons c cs ih =>
    rw [Text.ofChars, flatMap_cons, length_append, String.length_utf8EncodeChar, width, ← ih]
    rfl

theorem within_of_mem_ranges {p : Pattern} (ht : t.IsAscii)
    (h : r ∈ p.ranges t) : r.Within t.length := by
  obtain ⟨a, b, c, hchars, rfl⟩ := exists_of_mem_matchesFrom h
  have hlen : t.length = width t.chars := by
    rw [← length_ofChars, Text.chars_of_isAscii ht, Text.ofChars_map_charOf ht]
  rw [hchars, width_append, width_append] at hlen
  exact ⟨by dsimp only; omega, by dsimp only; omega⟩

end Pattern

end GlslToMetal
