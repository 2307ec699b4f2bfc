import GlslToMetal.Proofs.Text.Editing
import GlslToMetal.Proofs.Text.Seams

/-! Neat texts: ASCII code that holds none of some words outside comments. A neat text can be cut
between words of its code and put together again with other neat parts. -/

namespace GlslToMetal.Text

open List

variable {t w : Text}

section Append

variable {s t : Text} (hend : EndsCode s) (hslash : s.mask.getLast? = some 47 → Harmless t.head?)
include hend hslash

theorem EndsCode.maskUpTo_meeting : maskUpTo .code t.head? s = (s.mask, .code) := by
  have hself : maskUpTo .code none s = (s.mask, .code) := (maskUpTo_eq_mask s).trans (by rw [hend])
  rw [← hself]
  exact maskUpTo_next (.inr ⟨hend, by rw [hself]; exact hslash⟩)

theorem EndsCode.mask_append : (s ++ t).mask = s.mask ++ t.mask := by
  rw [mask, maskFrom_append, hend.maskUpTo_meeting hslash]
  rfl

theorem EndsCode.place_append : (maskUpTo .code none (s ++ t)).2 = (maskUpTo .code none t).2 := by
  rw [maskUpTo_append, Option.or_none, hend.maskUpTo_meeting hslash]

theorem EndsCode.append (ht : EndsCode t) : EndsCode (s ++ t) := (hend.place_append hslash).trans ht

end Append

theorem IsCode.append {s : Text} (hs : s.IsCode) (ht : t.IsCode) : (s ++ t).IsCode := fun b hb =>
  (mem_append.mp hb).elim (hs b) (ht b)

/-! Parts of a text. -/

theorem mask_cut {i j : Nat} (hij : i ≤ j) (hj : j ≤ t.length) (hstart : t.placeAt i = .code)
    (hstop : t.placeAt j = .code) : (t.cut ⟨i, j⟩).mask = t.mask.cut ⟨i, j⟩ ∧ EndsCode (t.cut ⟨i, j⟩) := by
  have hcut := maskUpTo_cut (Nat.le_trans hij hj) hstart hij hj hstop
  have hself : maskUpTo .code none (t.cut ⟨i, j⟩) = (t.mask.cut ⟨i, j⟩, .code) := by
    rw [← hcut]
    exact maskUpTo_next (.inr ⟨by rw [hcut], fun _ => harmless_none⟩)
  exact ⟨(maskUpTo_none _ _).symm.trans (congrArg Prod.fst hself), congrArg Prod.snd hself⟩

theorem IsCode.mask (h : t.IsCode) : t.mask.IsCode := by
  intro b hb
  rcases mem_maskFrom hb with hb | rfl
  · exact h b hb
  · decide

theorem IsCode.cut (h : t.IsCode) (r : Range) : (t.cut r).IsCode :=
  h.sublist ((take_sublist _ _).trans (drop_sublist _ _))

/-! Ranges by what stands in the mask there. -/

/-- In the range stands `w`, between `l` and `r`, and it begins and ends in code. -/
structure Stands (m l w r : Text) (range : Range) : Prop where
  split : m = l ++ w ++ r
  range_eq : range = ⟨l.length, l.length + w.length⟩
  first : ∃ b, w.head? = some b ∧ isBlank b = false
  last : ∃ b, w.getLast? = some b ∧ isBlank b = false

theorem solid_ends (hne : w ≠ []) (h : ∀ b ∈ w, isBlank b = false) :
    (∃ b, w.head? = some b ∧ isBlank b = false) ∧ ∃ b, w.getLast? = some b ∧ isBlank b = false :=
  ⟨⟨w.head hne, head?_eq_some_head hne, h _ (head_mem hne)⟩,
    ⟨w.getLast hne, getLast?_eq_some_getLast hne, h _ (getLast_mem hne)⟩⟩

theorem IsWord.stands {m l r : Text} (hw : w.IsWord) (h : m = l ++ w ++ r) :
    Stands m l w r ⟨l.length, l.length + w.length⟩ := by
  obtain ⟨hfirst, hlast⟩ := solid_ends hw.1 hw.not_isBlank
  exact ⟨h, rfl, hfirst, hlast⟩

namespace Stands

variable {t l w r : Text} {range : Range} (h : Stands t.mask l w r range)
include h

theorem within : range.Within t.length := by
  rw [← length_mask, h.split, h.range_eq, length_append, length_append]
  exact ⟨Nat.le_add_right _ _, Nat.le_add_right _ _⟩

theorem places : t.placeAt range.start = .code ∧ t.placeAt range.stop = .code := by
  obtain ⟨b, hb, hsolid⟩ := h.first
  obtain ⟨c, hc, hsolid'⟩ := h.last
  have hfirst : t.mask[l.length]? = some b := by
    rw [h.split, append_assoc, getElem?_append_right (Nat.le_refl _), Nat.sub_self,
      ← head?_eq_getElem?, head?_append, hb]
    rfl
  obtain ⟨x, rfl⟩ := getLast?_eq_some_iff.mp hc
  have hlast : t.mask[l.length + x.length]? = some c := by
    rw [h.split, ← append_assoc, ← length_append, append_assoc,
      getElem?_append_right (Nat.le_refl _), Nat.sub_self]
    rfl
  have hstop := (solid_at hlast hsolid').2.2
  rw [Nat.add_assoc] at hstop
  rw [h.range_eq, length_append]
  exact ⟨(solid_at hfirst hsolid).2.1, hstop⟩

end Stands

end GlslToMetal.Text
