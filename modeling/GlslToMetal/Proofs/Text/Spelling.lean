import GlslToMetal.Proofs.Text.Appending
import GlslToMetal.Proofs.Text.Seams

/-! Texts that differ in the spelling of words. A step that gives words other names changes maximal runs
of identifier bytes and nothing else. The relation between the two texts can be cut at every byte that
is no identifier byte, so it holds between the parts of the texts as well: between their words, their
lists and their items. -/

namespace GlslToMetal.Text

open List

variable {a s t w z : Text} {b c : UInt8}

/-- The texts are the same outside their words, and every word is the same or `R` relates its spellings. -/
inductive Spelled (R : Text → Text → Prop) : Text → Text → Prop where
  | nil : Spelled R [] []
  | apart {b : UInt8} {t t' : Text} : isWordByte b = false → Spelled R t t' → Spelled R (b :: t) (b :: t')
  | word {w w' t t' : Text} : w.IsWord → w'.IsWord → w' = w ∨ R w w' → StartsApart t → Spelled R t t' →
      Spelled R (w ++ t) (w' ++ t')

theorem IsWord.all_isBlank_append (hw : w.IsWord) (t : Text) : (w ++ t).all isBlank = false := by
  obtain ⟨b, w, rfl⟩ := exists_cons_of_ne_nil hw.1
  simp [isBlank_of_isWordByte (hw.2 b mem_cons_self)]

/-- A byte that is none of a word's stands behind the word. -/
theorem IsWord.exists_of_append_cons (hw : w.IsWord) (hc : isWordByte c = false) (h : a ++ c :: t = w ++ s) :
    ∃ a₂, a = w ++ a₂ ∧ a₂ ++ c :: t = s := by
  rcases append_eq_append_iff.1 h with ⟨x, rfl, hxt⟩ | ⟨x, rfl, hxt⟩
  · cases x with
    | nil => exact ⟨[], by simp, hxt⟩
    | cons d x =>
      obtain ⟨rfl, -⟩ := cons.inj hxt
      exact absurd (by simp) (hw.not_mem hc)
  · exact ⟨x, rfl, hxt.symm⟩

theorem wordBefore_of_blanks (hz : z.all isBlank) : wordBefore z.reverse = [] := by
  rw [wordBefore, dropWhile_of_all (by rwa [all_reverse])]
  rfl

theorem wordBefore_of_endsSolid (ht : EndsSolid t) (hword : EndsWord t) (hz : z.all isBlank) :
    wordBefore (t ++ z).reverse = [] := by
  obtain ⟨b, hb, hblank⟩ := ht
  obtain ⟨a, rfl⟩ : ∃ a, t = a ++ [b] := ⟨t.dropLast, (dropLast_append_getLast? b hb).symm⟩
  have hrev : (a ++ [b] ++ z).reverse = z.reverse ++ b :: a.reverse := by simp
  rw [wordBefore, hrev, dropWhile_append_of_all (by rwa [all_reverse]),
    dropWhile_cons_of_neg (by simp [hblank]), takeWhile_cons_of_neg (by simp [hword b hb])]
  rfl

theorem eq_nil_or_endsSolid (h : wordBefore t.reverse = []) :
    (beforeWord t.reverse).reverse = [] ∨ EndsSolid (beforeWord t.reverse).reverse := by
  have hbefore : beforeWord t.reverse = t.reverse.dropWhile isBlank := by
    have hsplit := takeWhile_append_dropWhile (p := isWordByte) (l := t.reverse.dropWhile isBlank)
    rwa [reverse_eq_nil_iff.1 h, nil_append] at hsplit
  rw [hbefore]
  cases hdrop : t.reverse.dropWhile isBlank with
  | nil => exact .inl rfl
  | cons b u =>
    exact .inr ⟨b, by simp, not_of_mem_head?_dropWhile (by rw [hdrop]; rfl)⟩

namespace Spelled

variable {R : Text → Text → Prop}

theorem append_cons {a' t' : Text} (ha : Spelled R a a') (hc : isWordByte c = false)
    (ht : Spelled R t t') : Spelled R (a ++ c :: t) (a' ++ c :: t') := by
  induction ha with
  | nil => exact .apart hc ht
  | apart hb _ ih => exact .apart hb ih
  | @word w w' u u' hw hw' hspelled hu _ ih =>
    rw [append_assoc, append_assoc]
    refine .word hw hw' hspelled ?_ ih
    cases u with
    | nil => exact fun b hb => by simpa [← Option.some.inj hb] using hc
    | cons d u => exact hu

theorem exists_of_append_cons (h : Spelled R (a ++ c :: t) s)
    (hc : isWordByte c = false) : ∃ a' t', s = a' ++ c :: t' ∧ Spelled R a a' ∧ Spelled R t t' := by
  generalize hx : a ++ c :: t = x at h
  induction h generalizing a with
  | nil => simp at hx
  | @apart b u u' hb hu ih =>
    cases a with
    | nil =>
      obtain ⟨rfl, rfl⟩ := cons.inj hx
      exact ⟨[], u', rfl, .nil, hu⟩
    | cons d a =>
      obtain ⟨rfl, htail⟩ := cons.inj hx
      obtain ⟨a', t', rfl, ha, ht⟩ := ih htail
      exact ⟨d :: a', t', rfl, .apart hb ha, ht⟩
  | @word w w' u u' hw hw' hspelled happart _ ih =>
    -- the byte is none of the word's, so the word lies before it
    obtain ⟨a₂, rfl, hu⟩ := hw.exists_of_append_cons hc hx
    obtain ⟨a', t', rfl, ha, ht⟩ := ih hu
    refine ⟨w' ++ a', t', by simp, .word hw hw' hspelled ?_ ha, ht⟩
    rw [← hu] at happart
    exact happart.of_append

theorem eq_nil (h : Spelled R [] s) : s = [] := by
  generalize hx : ([] : Text) = x at h
  cases h with
  | nil => rfl
  | apart => cases hx
  | word hw => exact absurd (append_eq_nil_iff.1 hx.symm).1 hw.1

theorem of_isWord (h : Spelled R w s) (hw : w.IsWord) : s = w ∨ R w s := by
  cases h with
  | nil => exact absurd rfl hw.1
  | @apart b t t' hb => exact absurd (hw.2 b mem_cons_self) (by simp [hb])
  | @word v v' t t' hv _ hspelled happart ht =>
    cases t with
    | nil => simpa [ht.eq_nil] using hspelled
    | cons b t => exact absurd (hw.2 b (by simp)) (by simp [happart b rfl])

theorem exists_of_append_word (h : Spelled R (a ++ w) s) (ha : EndsWord a) (hw : w.IsWord) :
    ∃ a' w', s = a' ++ w' ∧ Spelled R a a' ∧ (w' = w ∨ R w w') := by
  rcases eq_nil_or_concat a with rfl | ⟨a, c, rfl⟩
  · exact ⟨[], s, rfl, .nil, h.of_isWord hw⟩
  · have hc : isWordByte c = false := ha c (by simp)
    rw [concat_eq_append, append_assoc] at h
    obtain ⟨a', w', rfl, ha', hw'⟩ := h.exists_of_append_cons hc
    exact ⟨a' ++ [c], w', by simp, by simpa using ha'.append_cons hc .nil, hw'.of_isWord hw⟩

variable {t' : Text} (h : Spelled R t t')
include h

theorem all_isBlank : t'.all isBlank = t.all isBlank := by
  induction h with
  | nil => rfl
  | apart _ _ ih => rw [all_cons, all_cons, ih]
  | word hw hw' => rw [hw.all_isBlank_append, hw'.all_isBlank_append]

theorem symm : Spelled (flip R) t' t := by
  induction h with
  | nil => exact .nil
  | apart hb _ ih => exact .apart hb ih
  | @word w w' u u' hw hw' hspelled hapart hu ih =>
    refine .word hw' hw (hspelled.imp_left Eq.symm) ?_ ih
    cases u with
    | nil => rw [hu.eq_nil]; exact hapart
    | cons b u =>
      obtain ⟨a', t', rfl, ha, -⟩ := @exists_of_append_cons [] _ _ _ _ hu (hapart b rfl)
      rw [ha.eq_nil]
      exact fun c hc => by simpa [← Option.some.inj hc] using hapart b rfl

end Spelled

end GlslToMetal.Text
