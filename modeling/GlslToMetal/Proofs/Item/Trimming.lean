import GlslToMetal.Entry
import GlslToMetal.Proofs.Item.Reading

/-! Pieces of a program that can be put one behind another. A text settles if it leaves no comment
and no item open, whatever follows it. A piece of a program does so with an empty line behind it, and
also when white space is trimmed off it, unless the trimming brings a `#` to the front of an item. -/

namespace GlslToMetal

variable {cs : List Char} {next : Option UInt8} {s t : Text}

namespace Text

open List Item Unicode

/-- A byte of a white-space character. -/
def isWhiteByte (b : UInt8) : Bool := 128 ≤ b || isBlank b || b == 11

theorem ne_of_isWhiteByte {b c : UInt8} (hb : isWhiteByte b) (hc : isWhiteByte c = false) : b ≠ c := by
  rintro rfl
  rw [hc] at hb
  cases hb

theorem isWhiteByte_of_mem (h : ∀ c ∈ cs, isWhiteSpace c) : ∀ b ∈ ofChars cs, isWhiteByte b := by
  intro b hb
  obtain ⟨c, hc, hmem⟩ := mem_flatMap.mp hb
  obtain ⟨d, tail, hencode, -, hascii, hwide⟩ := exists_utf8EncodeChar c
  rw [hencode] at hmem
  by_cases hlt : d < 128
  · rw [hascii hlt] at hencode hmem
    obtain rfl := mem_singleton.mp hmem
    have hwhite := h c hc
    by_cases hvertical : b = 11
    · subst hvertical
      rfl
    · rw [eq_charOf hlt hencode, isWhiteSpace_charOf hlt hvertical] at hwhite
      simp [isWhiteByte, hwhite]
  · rcases mem_cons.mp hmem with rfl | hmem
    · simp [isWhiteByte, UInt8.not_lt.mp hlt]
    · have := hwide b hmem
      simp only [isContinuation, Bool.and_eq_true, decide_eq_true_eq] at this
      simp [isWhiteByte, this.1]

theorem plain_of_isWhiteByte {b : UInt8} (h : isWhiteByte b) : Delimiter.plain b := by
  have hne : ∀ {c : UInt8}, isWhiteByte c = false → b ≠ c := ne_of_isWhiteByte h
  simp [Delimiter.plain, Delimiter.ofOpener?, Delimiter.ofCloser?, @hne 123 rfl, @hne 40 rfl, @hne 91 rfl,
    @hne 125 rfl, @hne 41 rfl, @hne 93 rfl]

theorem maskUpTo_harmless {next' : Option UInt8} (h : Harmless next) (h' : Harmless next') (p : Place)
    (s : Text) : maskUpTo p next' s = maskUpTo p next s := by
  have hbyte : ∀ p b, maskByte p b next' = maskByte p b next := by
    intro p b
    simp only [maskByte, beq_eq_false_iff_ne.mpr h.1, beq_eq_false_iff_ne.mpr h.2,
      beq_eq_false_iff_ne.mpr h'.1, beq_eq_false_iff_ne.mpr h'.2]
  rcases eq_nil_or_concat s with rfl | ⟨s, b, rfl⟩
  · rfl
  · rw [concat_eq_append, maskUpTo_concat, maskUpTo_concat, hbyte]

theorem maskUpTo_block (h : 42 ∉ t) (next : Option UInt8) : (maskUpTo .block next t).2 = .block := by
  induction t with
  | nil => rfl
  | cons b t ih =>
    rw [mem_cons, not_or] at h
    have hbyte : ∀ next, (maskByte .block b next).2 = .block := by
      intro next
      simp [maskByte, Ne.symm h.1]
    simp only [maskUpTo, hbyte, ih h.2]

theorem place_of_harmless (h : Harmless next) (s : Text) : (maskUpTo .code next s).2 = .code ∨
    (maskUpTo .code next s).2 = .line ∨ (maskUpTo .code next s).2 = .block := by
  have hfits := @fits_maskUpTo .code next s (Place.fits_code _)
  cases hp : (maskUpTo .code next s).2 with
  | code => exact .inl rfl
  | line => exact .inr (.inl rfl)
  | block => exact .inr (.inr rfl)
  | opening => exact absurd (hfits.1 hp) h.2
  | closing => exact absurd (hfits.2 hp) h.1

theorem harmless_newline : Harmless (some newline) := by decide

/-- White space at the end of a text that ends in no block comment begins in none, and its mask is
white. -/
theorem maskUpTo_white {w : Text} (hw : ∀ b ∈ w, isWhiteByte b)
    (hplace : (maskUpTo .code next (s ++ w)).2 = .code ∨
      (maskUpTo .code next (s ++ w)).2 = .line ∧ Harmless next) :
    ((maskUpTo .code (some newline) s).2 = .code ∨ (maskUpTo .code (some newline) s).2 = .line) ∧
      ∃ z, (maskUpTo .code next (s ++ w)).1 = (maskUpTo .code (some newline) s).1 ++ z ∧
        ∀ b ∈ z, isWhiteByte b := by
  cases w with
  | nil =>
    rw [append_nil] at hplace ⊢
    have hsame : maskUpTo .code (some newline) s = maskUpTo .code next s := by
      rcases hplace with hcode | ⟨-, hnext⟩
      · exact maskUpTo_next (.inr ⟨hcode, fun _ => harmless_newline⟩)
      · exact maskUpTo_harmless hnext harmless_newline _ _
    rw [hsame]
    exact ⟨hplace.imp_right (·.1), [], (append_nil _).symm, by simp⟩
  | cons b w =>
    have hb := hw b mem_cons_self
    have hnext : Harmless (some b) :=
      ⟨fun h => ne_of_isWhiteByte hb rfl (Option.some.inj h), fun h =>
        ne_of_isWhiteByte hb rfl (Option.some.inj h)⟩
    have hstar : 42 ∉ b :: w := fun h => by cases hw 42 h
    rw [maskUpTo_append, head?_cons, Option.some_or, maskUpTo_harmless harmless_newline hnext] at hplace ⊢
    refine ⟨?_, _, rfl, fun c hc => ?_⟩
    · refine (or_assoc.mpr (place_of_harmless harmless_newline s)).resolve_right fun hp => ?_
      rw [hp, maskUpTo_block hstar] at hplace
      rcases hplace with h | ⟨h, -⟩ <;> cases h
    · rcases mem_maskUpTo hc with hc | rfl
      · exact hw c hc
      · rfl

/-- A newline behind the text ends it: it stands in no block comment, and no item is open. -/
structure Closes (t : Text) : Prop where
  place : (maskUpTo .code (some newline) t).2 = .code ∨ (maskUpTo .code (some newline) t).2 = .line
  item : (Reader.between.read (maskUpTo .code (some newline) t).1).isOpen = false

theorem Closes.of_append {s w : Text} {next : Option UInt8} (hw : ∀ b ∈ w, isWhiteByte b)
    (hplace : (maskUpTo .code next (s ++ w)).2 = .code ∨
      (maskUpTo .code next (s ++ w)).2 = .line ∧ Harmless next)
    (hopen : (Reader.between.read (maskUpTo .code next (s ++ w)).1).isOpen = false) : Closes s := by
  obtain ⟨hend, z, hz, hwhite⟩ := maskUpTo_white hw hplace
  refine ⟨hend, Bool.eq_false_iff.mpr fun h => ?_⟩
  rw [hz, Reader.read_append, Reader.isOpen_read h fun c hc =>
    ⟨plain_of_isWhiteByte (hwhite c hc), ne_of_isWhiteByte (hwhite c hc) rfl⟩] at hopen
  cases hopen

theorem append_charsTrimEnd (cs : List Char) :
    ∃ ws, cs = charsTrimEnd cs ++ ws ∧ ∀ c ∈ ws, isWhiteSpace c := by
  refine ⟨(cs.reverse.takeWhile isWhiteSpace).reverse, ?_, fun c hc => ?_⟩
  · rw [charsTrimEnd, ← reverse_append, takeWhile_append_dropWhile, reverse_reverse]
  · exact mem_takeWhile_imp (mem_reverse.mp hc)

theorem closes_trimEnd (hplace : (maskUpTo .code next (ofChars cs)).2 = .code)
    (hopen : (Reader.between.read (maskUpTo .code next (ofChars cs)).1).isOpen = false) :
    Closes (trimEnd (ofChars cs)) := by
  obtain ⟨ws, hcs, hws⟩ := append_charsTrimEnd cs
  have hsplit : ofChars cs = trimEnd (ofChars cs) ++ ofChars ws := by
    rw [trimEnd, chars_ofChars, ← ofChars_append, ← hcs]
  rw [hsplit] at hplace hopen
  exact Closes.of_append (isWhiteByte_of_mem hws) (.inl hplace) hopen

/-- White space that the scan reads as the beginning of an item stands before a `#`: trimmed, the text
begins with a preprocessor line. -/
def Exposes (t : Text) : Bool :=
  !(ofChars (t.chars.takeWhile isWhiteSpace)).all isBlank &&
    ((ofChars (t.chars.dropWhile isWhiteSpace)).mask.dropWhile isBlank).head? == some 35

theorem run_of_white (h : ∀ b ∈ t, isWhiteByte b) : Run t :=
  Run.nil.append_plain fun b hb => ⟨plain_of_isWhiteByte (h b hb), ne_of_isWhiteByte (h b hb) rfl⟩

theorem read_white (h : ∀ b ∈ t, isWhiteByte b) (hblank : ¬ t.all isBlank) {ρ : Reader} (hρ : ρ.isRest) :
    ∃ w, ρ.read t = .inside w ∧ ∀ b ∈ w, isWhiteByte b := by
  obtain ⟨b, r, ht, hb⟩ := exists_leading hblank
  have hwhite : ∀ c ∈ b :: r, isWhiteByte c := fun c hc => h c (by rw [ht]; exact mem_append_right _ hc)
  have hne : ∀ {c : UInt8}, isWhiteByte c = false → b ≠ c := ne_of_isWhiteByte (hwhite b mem_cons_self)
  have hrest : Reader.Resumes ρ [] (b :: r ++ []) := .of_isRest hρ (by simp [hb, @hne 59 rfl])
  refine ⟨b :: r, ?_, hwhite⟩
  rw [ht, Reader.read_append, (Reader.read_blanks hρ all_takeWhile).1,
    (hrest.begins (begins_cons hb (hne rfl) r) (cons_ne_nil b r)).2.2.1,
      (Reader.read_run (run_of_white hwhite) []).1]
  rfl

/-- An item that white space began begins as well without it, unless it is a preprocessor line then. -/
theorem isOpen_read_inside {w : Text} (hw : ∀ b ∈ w, isWhiteByte b)
    (h : (t.dropWhile isBlank).head? ≠ some 35)
    (hopen : ((Reader.inside w).read t).isOpen = false) : (Reader.between.read t).isOpen = false := by
  by_cases hblank : t.all isBlank
  · rw [(Reader.read_blanks rfl hblank).1]
    rfl
  · obtain ⟨b, r, ht, hb⟩ := exists_leading hblank
    have hhash : b ≠ 35 := by
      rintro rfl
      refine h ?_
      rw [ht, dropWhile_append_of_pos (fun c hc => mem_takeWhile_imp hc)]
      simp [hb]
    have hwhite : ∀ c ∈ w ++ t.takeWhile isBlank, isWhiteByte c := fun c hc => by
      rcases mem_append.mp hc with hc | hc
      · exact hw c hc
      · simp [isWhiteByte, mem_takeWhile_imp hc]
    have halike : Reader.Alike (w ++ t.takeWhile isBlank) [] (.inside (w ++ t.takeWhile isBlank))
        (.inside []) := by
      simpa using Reader.Alike.inside (a := w ++ t.takeWhile isBlank) (b := []) []
    have hnone : ∀ {c : UInt8}, isWhiteByte c = false → c ∉ w ++ t.takeWhile isBlank := fun hc hmem => by
      rw [hwhite _ hmem] at hc
      cases hc
    have hrest : Reader.Resumes .between [] (b :: r ++ []) := .between _
    rw [ht, Reader.read_append,
      (Reader.read_run (run_of_white fun c hc => hwhite c (mem_append_right _ hc)) w).1,
      halike.isOpen (by simp [@hnone 61 rfl]) (fun hlast => hnone rfl (mem_of_getLast? hlast))
        (by simp)] at hopen
    rwa [ht, Reader.read_append, (Reader.read_blanks rfl all_takeWhile).1,
      (hrest.begins (begins_cons hb hhash r) (cons_ne_nil b r)).2.2.1]

/-- **A piece closes when it is trimmed**, unless that exposes a preprocessor line. -/
theorem closes_trim (hplace : (maskUpTo .code none (ofChars cs)).2 ≠ .block)
    {ρ : Reader} (hρ : ρ.isRest) (hopen : (ρ.read (ofChars cs).mask).isOpen = false)
    (hexposes : Exposes (ofChars cs) = false) : Closes (trim (ofChars cs)) := by
  have hwhite : ∀ b ∈ ofChars (cs.takeWhile isWhiteSpace), isWhiteByte b :=
    isWhiteByte_of_mem fun c hc => mem_takeWhile_imp hc
  have hslash : 47 ∉ ofChars (cs.takeWhile isWhiteSpace) := fun h => by cases hwhite 47 h
  have hsplit : ofChars cs = ofChars (cs.takeWhile isWhiteSpace) ++ ofChars (cs.dropWhile isWhiteSpace) := by
    rw [← ofChars_append, takeWhile_append_dropWhile]
  have hmask : (ofChars cs).mask = ofChars (cs.takeWhile isWhiteSpace) ++
      (ofChars (cs.dropWhile isWhiteSpace)).mask := by
    rw [hsplit, mask, maskFrom_code_append hslash, mask]
  have hend : (maskUpTo .code none (ofChars (cs.dropWhile isWhiteSpace))).2 ≠ .block := by
    rwa [hsplit, maskUpTo_append, maskUpTo_code hslash] at hplace
  have hlead : (Reader.between.read (ofChars (cs.dropWhile isWhiteSpace)).mask).isOpen = false := by
    rw [hmask, Reader.read_append] at hopen
    by_cases hblank : (ofChars (cs.takeWhile isWhiteSpace)).all isBlank
    · rw [(Reader.read_blanks hρ hblank).1] at hopen
      rw [← (Reader.read_of_isRest hρ _).1, hopen]
    · obtain ⟨w, hread, hw⟩ := read_white hwhite hblank hρ
      rw [hread] at hopen
      refine isOpen_read_inside hw ?_ hopen
      simpa [Exposes, hblank] using hexposes
  obtain ⟨ws, hcs, hws⟩ := append_charsTrimEnd (cs.dropWhile isWhiteSpace)
  have htrim : trim (ofChars cs) ++ ofChars ws = ofChars (cs.dropWhile isWhiteSpace) := by
    rw [trim, chars_ofChars, ← ofChars_append, ← hcs]
  refine @Closes.of_append (trim (ofChars cs)) (ofChars ws) none (isWhiteByte_of_mem hws) ?_ ?_
  · rw [htrim]
    exact (place_of_harmless (by decide) _).imp_right fun hp => ⟨hp.resolve_right hend, by decide⟩
  · rw [htrim, maskUpTo_none]
    exact hlead

/-- No comment and no item is open behind the text, whatever follows. -/
structure Settled (t : Text) : Prop where
  mask : ∀ next, maskUpTo .code next t = (t.mask, .code)
  rest : (Reader.between.read t.mask).isRest

theorem settled_nil : Settled [] := ⟨fun _ => rfl, rfl⟩

theorem Settled.mask_append (h : Settled s) (t : Text) : (s ++ t).mask = s.mask ++ t.mask := by
  rw [Text.mask, maskFrom_append, h.mask]
  rfl

theorem Settled.append (hs : Settled s) (ht : Settled t) : Settled (s ++ t) := by
  refine ⟨fun next => ?_, ?_⟩
  · rw [maskUpTo_append, hs.mask, ht.mask, hs.mask_append]
  · rw [hs.mask_append, Reader.read_append, (Reader.read_of_isRest hs.rest _).2]
    exact ht.rest

/-- A text that ends in a newline settles if it ends in code and between items. -/
theorem Settled.of_newline (hplace : (maskUpTo .code none t).2 = .code)
    (hlast : t.mask.getLast? = some newline) (hrest : (Reader.between.read t.mask).isRest) : Settled t := by
  refine ⟨fun next => ?_, hrest⟩
  have hmask : (maskUpTo .code none t).1 = t.mask := maskUpTo_none _ _
  rw [maskUpTo_next (.inl (by rw [hmask, hlast]))]
  exact Prod.ext hmask hplace

/-- **An empty line settles a piece that a newline ends.** -/
theorem Closes.settled (h : Closes t) : Settled (t ++ ("\n\n" : Text)) := by
  have hlines : (Text.ofString "\n\n") = [10, 10] := rfl
  have hmask : ∀ next, maskUpTo .code next (t ++ [10, 10]) =
      ((maskUpTo .code (some newline) t).1 ++ [10, 10], .code) := by
    intro next
    rw [maskUpTo_append, head?_cons, Option.some_or]
    rcases h.place with hp | hp <;> rw [← newline, hp] <;> rfl
  have hsame : (t ++ [10, 10]).mask = (maskUpTo .code (some newline) t).1 ++ [10, 10] := by
    rw [mask, ← maskUpTo_none, hmask]
  rw [hlines]
  refine ⟨fun next => by rw [hmask, hsame], ?_⟩
  rw [hsame, Reader.read_append]
  cases hρ : Reader.between.read (maskUpTo .code (some newline) t).1 with
  | between => rfl
  | closed => rfl
  | line x =>
    -- A backslash takes the first newline into the line, and the second one ends it.
    by_cases hlast : x.getLast? = some 92 <;>
      simp [Reader.read, Reader.step, newline, hlast, Reader.isRest, Reader.begin, isBlank]
  | inside => simpa [hρ, Reader.isOpen] using h.item
  | nested => simpa [hρ, Reader.isOpen] using h.item
  | body => simpa [hρ, Reader.isOpen] using h.item

end Text

end GlslToMetal
