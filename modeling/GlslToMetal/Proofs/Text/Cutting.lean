import GlslToMetal.Proofs.Text.Removal
import Mathlib.Data.List.Induction

/-! Cutting a text in two. What is masked of a part is its part of the mask, if the part begins in code;
code of the mask is code of the text; and a text in UTF-8 may be cut wherever its characters end. -/

namespace GlslToMetal.Text

open List

variable {cs : List Char} {i : Nat} {next : Option UInt8} {p p' : Place} {t x : Text} {b : UInt8}

theorem length_of_maskUpTo (h : maskUpTo p next t = (x, p')) : t.length = x.length := by
  rw [← length_maskUpTo p next t, h]

theorem exists_of_maskUpTo {y : Text}
    (h : maskUpTo p next t = (x ++ y, p')) :
    ∃ s u q, t = s ++ u ∧ maskUpTo p (u.head?.or next) s = (x, q) ∧ maskUpTo q next u = (y, p') := by
  have hlength := length_of_maskUpTo h
  rw [length_append] at hlength
  have hsplit : t = t.take x.length ++ t.drop x.length := (take_append_drop _ _).symm
  rw [hsplit, maskUpTo_append, Prod.mk.injEq] at h
  obtain ⟨hmask, hplace⟩ := h
  obtain ⟨hx, hy⟩ := append_inj hmask (by rw [length_maskUpTo, length_take]; omega)
  exact ⟨_, _, _, hsplit, Prod.ext hx rfl, Prod.ext hy hplace⟩

theorem isBoundary_append {s : Text} (h : (ofChars cs).isBoundary i) :
    (s ++ ofChars cs).isBoundary (s.length + i) := by
  cases i with
  | zero => exact isBoundary_ofChars s cs
  | succ i =>
    unfold isBoundary at h ⊢
    rw [drop_append, drop_eq_nil_of_le (Nat.le_add_right _ _), nil_append, Nat.add_sub_cancel_left]
    split
    · next hdrop =>
      rw [hdrop, beq_iff_eq] at h
      rw [length_append, h, beq_self_eq_true]
    · next hdrop =>
      rw [hdrop] at h
      simpa using h

variable {p : Place} {next : Option UInt8} {t x : Text} {b : UInt8}

theorem solid_head (hb : isBlank b = false) (h : (maskUpTo p next t).1 = b :: x) :
    p = .code ∧ t.head? = some b := by
  cases t with
  | nil => cases h
  | cons c t =>
    simp only [maskUpTo, cons.injEq] at h
    rw [← h.1] at hb
    obtain ⟨hp, hbyte⟩ := maskByte_solid hb
    rw [hbyte] at h
    exact ⟨hp, congrArg some h.1⟩

theorem solid_last (hb : isBlank b = false) (h : (maskUpTo p next t).1 = x ++ [b]) :
    (maskUpTo p next t).2 = .code ∧ t.getLast? = some b := by
  cases t using reverseRecOn with
  | nil => exact absurd (congrArg length h) (by simp [maskUpTo])
  | append_singleton t c =>
    rw [maskUpTo_concat] at h ⊢
    have hlast : (maskByte (maskUpTo p (some c) t).2 c next).1 = b := by
      simpa using congrArg getLast? h
    rw [← hlast] at hb
    obtain ⟨-, hbyte⟩ := maskByte_solid hb
    rw [hbyte] at hlast
    exact ⟨congrArg Prod.snd hbyte, by rw [getLast?_concat, ← hlast]⟩

theorem solid_at (h : t.mask[i]? = some b) (hb : isBlank b = false) :
    t[i]? = some b ∧ t.placeAt i = .code ∧ t.placeAt (i + 1) = .code := by
  have hi : i < t.length := by
    rw [← length_mask]
    exact (List.getElem?_eq_some_iff.mp h).1
  obtain ⟨x, y, ht, hx⟩ : ∃ x y, t = x ++ y ∧ x.length = i :=
    ⟨t.take i, t.drop i, (take_append_drop i t).symm, length_take_of_le (Nat.le_of_lt hi)⟩
  subst ht hx
  cases y with
  | nil => simp at hi
  | cons c y =>
    rw [getElem?_mask, maskFrom_cons, head?_cons, Option.some.injEq] at h
    rw [← h] at hb
    obtain ⟨hplace, hbyte⟩ := maskByte_solid hb
    rw [hbyte] at h
    obtain rfl : c = b := h
    refine ⟨by simp, hplace, ?_⟩
    have hconcat : x ++ c :: y = (x ++ [c]) ++ y := by simp
    have hcode := placeAt_append (x ++ [c]) y
    rw [maskUpTo_concat, length_append, length_singleton, ← hconcat] at hcode
    rw [hcode, ← head?_cons (a := c) (l := y), ← placeAt_append x (c :: y), hplace]
    rw [hplace] at hbyte
    rw [hbyte]

section Parts

variable {t : Text} {i : Nat} (hi : i ≤ t.length) (hplace : t.placeAt i = .code)
include hi

theorem maskUpTo_take : maskUpTo .code (t.drop i).head? (t.take i) = (t.mask.take i, t.placeAt i) := by
  have hmask := mask_append (t.take i) (t.drop i)
  rw [take_append_drop] at hmask
  refine Prod.ext ?_ rfl
  rw [hmask, take_left' (by rw [length_maskUpTo, length_take_of_le hi])]

include hplace

theorem mask_drop : mask (t.drop i) = t.mask.drop i := by
  have hmask := mask_append (t.take i) (t.drop i)
  have hlength : (t.take i).length = i := length_take_of_le hi
  rw [take_append_drop, hlength, hplace] at hmask
  rw [hmask, drop_left' (by rw [length_maskUpTo, hlength])]
  rfl

theorem placeAt_drop {k : Nat} (hk : i + k ≤ t.length) : placeAt (t.drop i) k = t.placeAt (i + k) := by
  have hlength : k ≤ (t.drop i).length := by
    rw [length_drop]
    omega
  have hstep := placeAt_step (t.take i) ((t.drop i).take k) ((t.drop i).drop k)
  rw [take_append_drop, take_append_drop, length_take_of_le hi, length_take_of_le hlength, hplace] at hstep
  exact hstep.symm

theorem maskUpTo_cut {j : Nat} (hij : i ≤ j) (hj : j ≤ t.length) (hstop : t.placeAt j = .code) :
    maskUpTo .code (t.drop j).head? (t.cut ⟨i, j⟩) = (t.mask.cut ⟨i, j⟩, .code) := by
  have hlength : j - i ≤ (t.drop i).length := by
    rw [length_drop]
    omega
  have hmask := maskUpTo_take hlength
  rw [drop_drop, mask_drop hi hplace, placeAt_drop hi hplace (by omega), Nat.add_sub_cancel' hij,
    hstop] at hmask
  exact hmask

end Parts

theorem placeAt_length (t : Text) : t.placeAt t.length = (maskUpTo .code none t).2 := by
  rw [placeAt, drop_length, take_length]
  rfl

theorem isBoundary_of_lt (h : (ofChars cs)[i]? = some b) (hb : b < 128) :
    (ofChars cs).isBoundary i ∧ (ofChars cs).isBoundary (i + 1) := by
  obtain ⟨hi, hget⟩ := List.getElem?_eq_some_iff.mp h
  have hsplit : ofChars cs = (ofChars cs).take i ++ b :: (ofChars cs).drop (i + 1) := by
    rw [← hget, ← drop_eq_getElem_cons hi, take_append_drop]
  have hlength : ((ofChars cs).take i).length = i := length_take_of_le (Nat.le_of_lt hi)
  obtain ⟨a, z, rfl, ha, hz⟩ := exists_of_ofChars_eq hb hsplit
  rw [ha] at hlength
  have hleft := isBoundary_ofChars (ofChars a) (charOf b :: z)
  have hright := isBoundary_ofChars (ofChars (a ++ [charOf b])) z
  have hwidth : (ofChars (a ++ [charOf b])).length = i + 1 := by
    rw [ofChars_append, ofChars_cons, utf8EncodeChar_charOf hb, length_append, hlength]
    rfl
  rw [← ofChars_append, hlength] at hleft
  rw [← ofChars_append, hwidth, append_assoc] at hright
  exact ⟨hleft, hright⟩

theorem exists_ofChars_cut {j : Nat} (hij : i ≤ j) (hj : j ≤ (ofChars cs).length)
    (hi : (ofChars cs).isBoundary i) (hj' : (ofChars cs).isBoundary j) :
    ∃ ds, (ofChars cs).cut ⟨i, j⟩ = ofChars ds := by
  have hlength : ((ofChars cs).take i).length = i := length_take_of_le (Nat.le_trans hij hj)
  have hsplit : ofChars cs = (ofChars cs).take i ++ (ofChars cs).drop i := (take_append_drop _ _).symm
  obtain ⟨-, z, -, -, hz⟩ := exists_ofChars_of_isBoundary hsplit (by rwa [← hsplit, hlength])
  have hrest : (ofChars z).isBoundary (j - i) := by
    rw [← hz]
    refine @isBoundary_of_append ((ofChars cs).take i) _ _ ?_
    rwa [← hsplit, hlength, Nat.add_sub_cancel' hij]
  have hle : j - i ≤ (ofChars z).length := by
    rw [← hz, length_drop]
    omega
  have hlength' : ((ofChars z).take (j - i)).length = j - i := length_take_of_le hle
  have hsplit' : ofChars z = (ofChars z).take (j - i) ++ (ofChars z).drop (j - i) :=
    (take_append_drop _ _).symm
  obtain ⟨a, -, -, ha, -⟩ := exists_ofChars_of_isBoundary hsplit' (by rwa [← hsplit', hlength'])
  exact ⟨a, by rw [cut, hz, ha]⟩

end GlslToMetal.Text
