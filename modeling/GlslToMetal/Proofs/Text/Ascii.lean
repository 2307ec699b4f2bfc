import GlslToMetal.Text.Words

/-! Texts in ASCII. Every offset of such a text lies between two characters, so a cut inside the
text never fails, and its characters are its bytes. Without the vertical tab, the one byte that is
white space but no blank of the scanner, the two notions of trimming are one. -/

namespace GlslToMetal.Text

open List

variable {cs : List Char} {s t : Text} {b : UInt8}

/-- Nothing but ASCII. -/
def IsAscii (t : Text) : Prop := ∀ b ∈ t, b < 128

instance (t : Text) : Decidable t.IsAscii := decidableBAll (· < 128) t

theorem isContinuation_of_lt (h : b < 128) : isContinuation b = false := by
  have hb : b.toNat < 128 := h
  have : ¬ (0x80 : UInt8) ≤ b := by
    intro hle
    have : (128 : UInt8).toNat ≤ b.toNat := hle
    simp at this
    omega
  simp [isContinuation, this]

theorem isBoundary_of_isAscii (h : t.IsAscii) {i : Nat} (hi : i ≤ t.length) : t.isBoundary i = true := by
  unfold isBoundary
  split
  · next hdrop =>
    have := drop_eq_nil_iff.mp hdrop
    simp
    omega
  · next b rest hdrop =>
    have hb : b ∈ t := mem_of_mem_drop (hdrop ▸ mem_cons_self)
    simp [isContinuation_of_lt (h b hb)]

theorem of_slice {t u : Text} {r : Range} (h : t.slice r = .ok u) :
    r.start ≤ r.stop ∧ r.stop ≤ t.length ∧ t.cut r = u := by
  unfold slice at h
  (repeat' split at h) <;> cases h
  next hle hstop _ => exact ⟨Nat.not_lt.mp hle, Nat.not_lt.mp hstop, rfl⟩

theorem slice_of_isAscii (h : t.IsAscii) {r : Range} (hle : r.start ≤ r.stop)
    (hstop : r.stop ≤ t.length) : t.slice r = .ok (t.cut r) := by
  unfold slice
  rw [if_neg (by omega), if_neg (by omega), isBoundary_of_isAscii h (by omega), isBoundary_of_isAscii h hstop]
  rfl

theorem cut_append (pre mid post : Text) :
    (pre ++ mid ++ post).cut ⟨pre.length, pre.length + mid.length⟩ = mid := by
  simp [cut, append_assoc]

theorem slice_append {pre mid post : Text} (h : (pre ++ mid ++ post).IsAscii) :
    (pre ++ mid ++ post).slice ⟨pre.length, pre.length + mid.length⟩ = .ok mid := by
  rw [slice_of_isAscii h (by simp) (by simp), cut_append]

/-! The characters of a text in ASCII are its bytes. -/

/-- The character of a byte in ASCII. -/
def charOf (b : UInt8) : Char := Char.ofNat b.toNat

theorem toNat_charOf (h : b < 128) : (charOf b).toNat = b.toNat := by
  have hb : b.toNat < 128 := h
  have hvalid : b.toNat.isValidChar := Or.inl (by omega)
  unfold charOf Char.ofNat
  rw [dif_pos hvalid]
  rfl

theorem chars_of_isAscii (h : t.IsAscii) : t.chars = t.map charOf := by
  unfold chars
  induction t with
  | nil => rfl
  | cons b rest ih =>
    have hb : b < 0x80 := h b mem_cons_self
    simp only [decodeFrom, octet, firstOctet, hb, if_true, map_cons, cons_append, nil_append]
    rw [ih fun c hc => h c (mem_cons_of_mem _ hc)]
    rfl

theorem utf8EncodeChar_charOf (h : b < 128) : String.utf8EncodeChar (charOf b) = [b] := by
  have hn : (charOf b).val.toNat = b.toNat := toNat_charOf h
  have hb : b.toNat < 128 := h
  unfold String.utf8EncodeChar
  simp only [hn]
  rw [if_pos (by omega)]
  simp

theorem ofChars_map_charOf (h : t.IsAscii) : ofChars (t.map charOf) = t := by
  induction t with
  | nil => rfl
  | cons b rest ih =>
    have hb := utf8EncodeChar_charOf (h b mem_cons_self)
    simp only [ofChars, map_cons, flatMap_cons, hb, cons_append, nil_append, cons.injEq, true_and]
    exact ih fun c hc => h c (mem_cons_of_mem _ hc)

namespace IsAscii

theorem of_subset (h : t.IsAscii) (hs : s ⊆ t) : s.IsAscii := fun b hb => h b (hs hb)

theorem append (hs : s.IsAscii) (ht : t.IsAscii) : (s ++ t).IsAscii := fun b hb =>
  (mem_append.mp hb).elim (hs b) (ht b)

theorem cut (h : t.IsAscii) (r : Range) : (t.cut r).IsAscii :=
  h.of_subset fun _ hb => mem_of_mem_drop (mem_of_mem_take hb)

end IsAscii

theorem isAscii_ofChars (h : t.IsAscii) (hcs : cs ⊆ t.chars) : (ofChars cs).IsAscii := by
  intro b hb
  obtain ⟨c, hc, hb⟩ := mem_flatMap.mp hb
  have hmem := hcs hc
  rw [chars_of_isAscii h] at hmem
  obtain ⟨a, ha, rfl⟩ := mem_map.mp hmem
  rw [utf8EncodeChar_charOf (h a ha), mem_singleton] at hb
  exact hb ▸ h a ha

/-! Literals. A literal is the list of its characters, and its text is read off them. -/

theorem ofString_ofList (cs : List Char) : ofString (String.ofList cs) = ofChars cs := by
  rw [ofString, String.toList_ofList, ofChars]

theorem ofString_append (s t : String) : ofString (s ++ t) = ofString s ++ ofString t := by
  rw [ofString, ofString, ofString, String.toList_append, flatMap_append]

theorem isAscii_ofList (h : cs.all (·.val < 128)) : (ofString (String.ofList cs)).IsAscii := by
  rw [ofString_ofList]
  intro b hb
  obtain ⟨c, hc, hb⟩ := mem_flatMap.mp hb
  have hlt : c.val.toNat < 128 := of_decide_eq_true (all_eq_true.mp h c hc)
  rw [String.utf8EncodeChar_eq_singleton (by rw [Char.utf8Size_eq_one_iff]; exact Nat.le_of_lt_succ hlt),
    mem_singleton] at hb
  rw [hb, UInt8.lt_iff_toNat_lt]
  simp only [UInt32.toNat_toUInt8, UInt8.reduceToNat]
  omega

theorem charsTrimEnd_subset (cs : List Char) : charsTrimEnd cs ⊆ cs := by
  intro c hc
  rw [charsTrimEnd, mem_reverse] at hc
  exact mem_reverse.mp ((dropWhile_sublist _).subset hc)

theorem flatten_charWords (cs : List Char) :
    (charWords cs).flatten = cs.filter (!Unicode.isWhiteSpace ·) := by
  induction cs with
  | nil => rfl
  | cons c cs ih =>
    rw [charWords, filter_cons, ← ih]
    split
    · next hc => simp [hc]
    · next hc =>
      split
      · simp [hc]
      · split <;> simp_all

theorem mem_of_mem_charWords {word : List Char} (h : word ∈ charWords cs) : word ⊆ cs := by
  intro c hc
  have hmem := mem_flatten_of_mem h hc
  rw [flatten_charWords] at hmem
  exact (mem_filter.mp hmem).1

namespace IsAscii

theorem words (h : t.IsAscii) : ∀ word ∈ t.words, word.IsAscii := by
  intro word hword
  obtain ⟨cs, hcs, rfl⟩ := mem_map.mp hword
  exact isAscii_ofChars h (mem_of_mem_charWords hcs)

end IsAscii

/-! Blanks and white space. -/

/-- A text in ASCII without the vertical tab: its white space are its blanks. -/
def IsCode (t : Text) : Prop := ∀ b ∈ t, b < 128 ∧ b ≠ 11

instance (t : Text) : Decidable t.IsCode := decidableBAll (fun b => b < 128 ∧ b ≠ 11) t

theorem IsCode.isAscii (h : t.IsCode) : t.IsAscii := fun b hb => (h b hb).1

theorem IsCode.sublist (h : t.IsCode) (hs : List.Sublist s t) : s.IsCode :=
  fun b hb => h b (hs.subset hb)

theorem isWhiteSpace_charOf (h : b < 128) (hb : b ≠ 11) : Unicode.isWhiteSpace (charOf b) = isBlank b := by
  have hlt : b.toNat < 128 := h
  have hne : b.toNat ≠ 11 := fun heq => hb (UInt8.toNat_inj.mp heq)
  unfold Unicode.isWhiteSpace isBlank
  rw [toNat_charOf h, if_pos hlt, Bool.eq_iff_iff]
  simp only [Bool.or_eq_true, Bool.and_eq_true, decide_eq_true_eq, beq_iff_eq, ← UInt8.toNat_inj]
  simp
  omega

theorem lt_of_isBlank (h : isBlank b) : b < 128 := by
  simp only [isBlank, Bool.or_eq_true, beq_iff_eq] at h
  rcases h with (((rfl | rfl) | rfl) | rfl) | rfl <;> decide

theorem isWhiteSpace_of_isBlank (h : isBlank b) : Unicode.isWhiteSpace (charOf b) := by
  rw [isWhiteSpace_charOf (lt_of_isBlank h) (by rintro rfl; cases h), h]

/-- The text without the blanks at its end. -/
def stripEnd (t : Text) : Text := (t.reverse.dropWhile isBlank).reverse

/-- The text without the blanks at its ends. -/
def strip (t : Text) : Text := stripEnd (t.dropWhile isBlank)

theorem dropWhile_isWhiteSpace (h : t.IsCode) :
    (t.map charOf).dropWhile Unicode.isWhiteSpace = (t.dropWhile isBlank).map charOf := by
  induction t with
  | nil => rfl
  | cons b rest ih =>
    have hb := h b mem_cons_self
    have hrest : IsCode rest := fun c hc => h c (mem_cons_of_mem _ hc)
    simp only [map_cons, dropWhile_cons, isWhiteSpace_charOf hb.1 hb.2]
    split
    · exact ih hrest
    · rfl

theorem stripEnd_sublist (t : Text) : List.Sublist t.stripEnd t := by
  have h := (dropWhile_sublist (l := t.reverse) isBlank).reverse
  rwa [reverse_reverse] at h

theorem charsTrimEnd_map (h : t.IsCode) : charsTrimEnd (t.map charOf) = t.stripEnd.map charOf := by
  have hrev : IsCode t.reverse := fun b hb => h b (mem_reverse.mp hb)
  unfold charsTrimEnd stripEnd
  rw [← map_reverse, dropWhile_isWhiteSpace hrev, map_reverse]

theorem strip_sublist (t : Text) : List.Sublist t.strip t :=
  (stripEnd_sublist _).trans (dropWhile_sublist _)

theorem trim_of_isCode (h : t.IsCode) : t.trim = t.strip := by
  have hdrop : IsCode (t.dropWhile isBlank) := h.sublist (dropWhile_sublist _)
  unfold trim
  rw [chars_of_isAscii h.isAscii, dropWhile_isWhiteSpace h, charsTrimEnd_map hdrop]
  exact ofChars_map_charOf (h.sublist (strip_sublist t)).isAscii

theorem isWhite_of_isCode (h : t.IsCode) : t.isWhite = t.all isBlank := by
  unfold isWhite
  rw [chars_of_isAscii h.isAscii, all_map]
  induction t with
  | nil => rfl
  | cons b rest ih =>
    have hb := h b mem_cons_self
    simp only [all_cons, Function.comp_apply, isWhiteSpace_charOf hb.1 hb.2]
    rw [ih fun c hc => h c (mem_cons_of_mem _ hc)]

end GlslToMetal.Text
