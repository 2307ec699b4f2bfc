import GlslToMetal.Proofs.Text.Word

/-! The search for a word and the offsets at which the word stands. The search goes on behind each
match, so matches that overlap one it has met are never looked at. None of these is a whole word: a
match that begins inside an earlier one stands behind an identifier byte, namely a byte of the word
itself. -/

namespace GlslToMetal.Text

open List

variable {l r t w : Text} {p q : Nat}

/-- The word stands at an offset, and neither the byte before it nor the byte behind it is an identifier
byte. -/
structure StandsWhole (t w : Text) (p : Nat) : Prop where
  stands : w <+: t.drop p
  before : ∀ i, i + 1 = p → ∀ b ∈ t[i]?, isWordByte b = false
  behind : ∀ b ∈ t[p + w.length]?, isWordByte b = false

theorem StandsWhole.exists_append (h : t.StandsWhole w p) (hne : w ≠ []) :
    ∃ l r, t = l ++ w ++ r ∧ l.length = p := by
  obtain ⟨r, hr⟩ := h.stands
  refine ⟨t.take p, r, by rw [append_assoc, hr, take_append_drop], ?_⟩
  have hlength := congrArg length hr
  have hpos := length_pos_iff.mpr hne
  rw [length_append, length_drop] at hlength
  rw [length_take]
  omega

theorem standsWhole_append : (l ++ w ++ r).StandsWhole w l.length ↔ EndsWord l ∧ StartsApart r := by
  have hlast : ∀ i, i + 1 = l.length → (l ++ w ++ r)[i]? = l.getLast? := by
    intro i hi
    rw [append_assoc, getElem?_append_left (by omega), getLast?_eq_getElem?, ← hi, Nat.add_sub_cancel]
  have hnext : (l ++ w ++ r)[l.length + w.length]? = r.head? := by
    rw [← length_append, getElem?_append_right (Nat.le_refl _), Nat.sub_self, head?_eq_getElem?]
  constructor
  · intro h
    refine ⟨fun b hb => ?_, fun b hb => h.behind b (hnext ▸ hb)⟩
    cases hl : l.length with
    | zero =>
      rw [length_eq_zero_iff.mp hl] at hb
      cases hb
    | succ i => exact h.before i hl.symm b (hlast i hl.symm ▸ hb)
  · rintro ⟨hl, hr⟩
    refine ⟨?_, fun i hi b hb => hl b (hlast i hi ▸ hb), fun b hb => hr b (hnext ▸ hb)⟩
    rw [append_assoc, drop_left]
    exact prefix_append w r

/-- The search finds a word exactly where it stands whole. -/
theorem mem_findWord_iff_standsWhole (hw : w.IsWord) : p ∈ t.findWord w ↔ t.StandsWhole w p := by
  rw [mem_findWord hw]
  constructor
  · rintro ⟨l, r, rfl, rfl, hl, hr⟩
    exact standsWhole_append.mpr ⟨hl, hr⟩
  · intro h
    obtain ⟨l, r, rfl, rfl⟩ := h.exists_append hw.1
    exact ⟨l, r, rfl, rfl, standsWhole_append.mp h⟩

/-- A match before a whole word ends before it: else the byte before the whole word is one of the match. -/
theorem StandsWhole.match_before (h : t.StandsWhole w p) (hw : w.IsWord) (hlt : q < p) (hq : w <+: t.drop q) :
    q + w.length ≤ p := by
  by_contra hover
  have hinside : p - 1 - q < w.length := by omega
  have hbyte : t[p - 1]? = some w[p - 1 - q] := by
    rw [← prefix_iff_getElem?.mp hq (p - 1 - q) hinside, getElem?_drop]
    congr 1
    omega
  have hfalse := h.before (p - 1) (by omega) _ hbyte
  rw [hw.2 _ (getElem_mem hinside)] at hfalse
  cases hfalse

/-- **The search for a word is sound and complete**, though it looks at no match that overlaps one it
has met. It gives, in strictly increasing order, the offsets at which the word stands with no identifier
byte on either side. A match that begins before such an offset, whole or not, ends before it, so it
hides none. -/
theorem findWord_sound_complete (hw : w.IsWord) (t : Text) :
    (t.findWord w).Pairwise (· < ·) ∧ (∀ p, p ∈ t.findWord w ↔ t.StandsWhole w p) ∧
      ∀ p, t.StandsWhole w p → ∀ q < p, w <+: t.drop q → q + w.length ≤ p :=
  ⟨pairwise_findWord hw.1 t, fun _ => mem_findWord_iff_standsWhole hw, fun _ h _ hlt hq =>
    h.match_before hw hlt hq⟩

/-- In `aaa é_aa aa+aa a_a_a`, the word `aa` stands whole at 10 and at 13. The search meets the first
two letters of `aaa` and so never looks at the last two. -/
theorem findWord_sound_complete_overlapping :
    let t : Text := [97, 97, 97, 32, 195, 169, 95, 97, 97, 32, 97, 97, 43, 97, 97, 32, 97, 95, 97, 95, 97]
    let w : Text := [97, 97]
    w.IsWord ∧ t.findWord w = [10, 13] ∧ [97, 97] <+: t.drop 1 ∧ (t.findWord w).Pairwise (· < ·) ∧
      ∀ p, p ∈ t.findWord w ↔ t.StandsWhole w p := by
  intro t w
  have hw : w.IsWord := ⟨cons_ne_nil _ _, all_eq_true.mp (by decide)⟩
  obtain ⟨hsorted, hiff, -⟩ := findWord_sound_complete hw t
  exact ⟨hw, by decide, by decide, hsorted, hiff⟩

end GlslToMetal.Text
