import GlslToMetal.Proofs.Pattern
import GlslToMetal.Proofs.Program.Bounds
import GlslToMetal.Proofs.Text.Cutting

/-! Words that stand in a text. A word stands on its own when no identifier byte touches it. A word of
the mask stands in the text as well: a comment begins with `/` and ends in `/` or before a newline, so
it touches no word. The words that are cut at white space, and at `&`, stand on their own. -/

namespace GlslToMetal.Text

open List Unicode

variable {c : Char} {cs : List Char} {next : Option UInt8} {p q : Place} {r : Range}
  {l s t w z : Text} {b : UInt8}

/-- The word stands in the text, and no identifier byte touches it. -/
def HasWord (t w : Text) : Prop := ∃ l r, t = l ++ w ++ r ∧ EndsWord l ∧ StartsApart r

theorem hasWord_iff_containsWord (hw : w.IsWord) : t.HasWord w ↔ t.containsWord w := by
  have hmem : t.containsWord w ↔ ∃ i, i ∈ t.findWord w := by
    rw [containsWord, Bool.not_eq_true', isEmpty_eq_false_iff_exists_mem]
  rw [hmem]
  constructor
  · rintro ⟨l, r, ht, hl, hr⟩
    exact ⟨l.length, (mem_findWord hw).mpr ⟨l, r, ht, rfl, hl, hr⟩⟩
  · rintro ⟨i, hi⟩
    obtain ⟨l, r, ht, -, hl, hr⟩ := (mem_findWord hw).mp hi
    exact ⟨l, r, ht, hl, hr⟩

theorem maskUpTo_part {t : Text} {r : Range} (hr : r.start ≤ r.stop) (hstop : r.stop ≤ t.length) :
    maskUpTo (t.placeAt r.start) (t.drop r.stop).head? (t.cut r) = (t.mask.cut r, t.placeAt r.stop) := by
  have htake : ∀ u : Text, u.take r.stop = u.take r.start ++ u.cut r := by
    intro u
    conv => lhs; rw [← Nat.add_sub_cancel' hr, take_add]
    rfl
  have hmask := maskUpTo_take hstop
  rw [htake, htake, maskUpTo_append, ← head?_append, ← drop_start hr, maskUpTo_take (Nat.le_trans hr hstop),
    Prod.mk.injEq] at hmask
  exact Prod.ext (append_cancel_left hmask.1) hmask.2

theorem eq_of_maskUpTo_solid (h : maskUpTo p next s = (w, q))
    (hw : ∀ b ∈ w, isBlank b = false) (hne : w ≠ []) : s = w ∧ p = .code ∧ q = .code := by
  induction s generalizing p w with
  | nil =>
    cases h
    exact absurd rfl hne
  | cons b s ih =>
    have hfirst : isBlank (maskByte p b (s.head?.or next)).1 = false := by
      cases h
      exact hw _ mem_cons_self
    obtain ⟨rfl, hbyte⟩ := maskByte_solid hfirst
    simp only [maskUpTo, hbyte] at h
    cases h
    cases s with
    | nil => exact ⟨rfl, rfl, rfl⟩
    | cons c s =>
      obtain ⟨hs, -, hq⟩ := @ih .code _ rfl (fun d hd => hw d (mem_cons_of_mem _ hd)) (by simp)
      exact ⟨congrArg (b :: ·) hs, rfl, hq⟩

/-- Code follows code, the newline behind a line comment, and the mark that closes a block comment. -/
theorem cases_of_maskByte_code (h : (maskByte p b next).2 = .code) :
    (maskByte p b next).1 = b ∨ b = newline ∨ p = .closing := by
  cases p with
  | code =>
    unfold maskByte at h ⊢
    dsimp only at h ⊢
    split at h
    · cases h
    split at h
    · cases h
    · next hline hblock => exact .inl (by rw [if_neg hline, if_neg hblock])
  | line =>
    unfold maskByte at h
    dsimp only at h
    split at h
    · next hnewline => exact .inr (.inl (beq_iff_eq.mp hnewline))
    · cases h
  | opening => cases h
  | block =>
    unfold maskByte at h
    dsimp only at h
    split at h <;> cases h
  | closing => exact .inr (.inr rfl)

/-- What is masked before code ends before a word if its mask does: a comment ends in `/` or before a
newline. -/
theorem endsWord_of_maskUpTo (hp : p.Fits (s.head?.or next))
    (h : maskUpTo p next s = (l, .code)) (hl : EndsWord l) : EndsWord s := by
  rcases eq_nil_or_concat s with rfl | ⟨s, b, rfl⟩
  · nofun
  rw [concat_eq_append] at hp h ⊢
  rw [maskUpTo_concat, Prod.mk.injEq] at h
  obtain ⟨rfl, hplace⟩ := h
  have hfits : (maskUpTo p (some b) s).2.Fits (some b) := by
    refine fits_maskUpTo ?_
    cases s <;> exact hp
  have hmasked := hl (maskByte (maskUpTo p (some b) s).2 b next).1 (by simp)
  intro c hc
  rw [getLast?_concat] at hc
  cases hc
  generalize (maskUpTo p (some b) s).2 = q at hfits hplace hmasked
  rcases cases_of_maskByte_code hplace with hbyte | rfl | rfl
  · rwa [hbyte] at hmasked
  · rfl
  · cases hfits.2 rfl
    rfl

/-- What is masked behind code goes on behind a word if its mask does: a comment begins with `/`. -/
theorem startsApart_of_maskUpTo {r : Text} (h : maskUpTo .code next s = (r, q))
    (hr : StartsApart r) : StartsApart s := by
  cases s with
  | nil => nofun
  | cons b s =>
    simp only [maskUpTo, Prod.mk.injEq] at h
    obtain ⟨rfl, -⟩ := h
    have hmasked := hr _ (Option.mem_some.mpr rfl)
    rintro _ ⟨⟩
    by_cases hslash : b = 47
    · rw [hslash]
      rfl
    · simpa [maskByte, hslash] using hmasked

theorem exists_of_mask (hr : r.start ≤ r.stop) (hstop : r.stop ≤ t.length)
    (h : t.mask.cut r = l ++ w ++ z) (hw : ∀ b ∈ w, isBlank b = false) (hne : w ≠ []) (hl : EndsWord l) :
    ∃ l' z', t.cut r = l' ++ w ++ z' ∧ EndsWord l' ∧ (StartsApart z → StartsApart z') := by
  have hmask := maskUpTo_part hr hstop
  rw [h] at hmask
  obtain ⟨s, z', q, hcut, hs, hz⟩ := exists_of_maskUpTo hmask
  obtain ⟨l', w', q', rfl, hl', hw'⟩ := exists_of_maskUpTo hs
  obtain ⟨rfl, rfl, rfl⟩ := eq_of_maskUpTo_solid hw' hw hne
  refine ⟨l', z', hcut, endsWord_of_maskUpTo ?_ hl' hl, startsApart_of_maskUpTo hz⟩
  have hhead : l'.head?.or (w'.head?.or (z'.head?.or (t.drop r.stop).head?)) = (t.drop r.start).head? := by
    simp only [drop_start hr, hcut, head?_append, Option.or_assoc]
  rw [hhead]
  exact fits_maskUpTo (Place.fits_code _)

/-- **A word of the mask is a word of the text.** -/
theorem hasWord_of_mask (hr : r.start ≤ r.stop) (hstop : r.stop ≤ t.length)
    (h : t.mask.cut r = l ++ w ++ z) (hw : ∀ b ∈ w, isBlank b = false) (hne : w ≠ []) (hl : EndsWord l)
    (hz : StartsApart z) : (t.cut r).HasWord w := by
  obtain ⟨l', z', hcut, hl', hz'⟩ := exists_of_mask hr hstop h hw hne hl
  exact ⟨l', z', hcut, hl', hz' hz⟩

theorem lt_of_isWordByte (h : isWordByte b) : b < 128 := (isCode_of_isWordByte h).1

/-- No byte of the character is an identifier byte. -/
def CharApart (c : Char) : Prop := ∀ b : UInt8, b < 128 → c = charOf b → isWordByte b = false

theorem charApart_of_isWhiteSpace (h : isWhiteSpace c) : CharApart c := by
  rintro b hb rfl
  by_cases htab : b = 11
  · rw [htab]
    rfl
  · rw [isWhiteSpace_charOf hb htab] at h
    exact isWordByte_of_isBlank h

theorem charApart_of_eq (hb : b < 128) (hc : c = charOf b) (hword : isWordByte b = false) : CharApart c := by
  rintro d hd rfl
  have hoctets := congrArg String.utf8EncodeChar hc
  rw [utf8EncodeChar_charOf hd, utf8EncodeChar_charOf hb] at hoctets
  cases hoctets
  exact hword

theorem ofChars_ne_nil (h : cs ≠ []) : ofChars cs ≠ [] := by
  intro hnil
  have hchars := chars_ofChars cs
  rw [hnil] at hchars
  exact h hchars.symm

theorem endsWord_ofChars (h : ∀ c ∈ cs.getLast?, CharApart c) : EndsWord (ofChars cs) := by
  rcases eq_nil_or_concat cs with rfl | ⟨cs, c, rfl⟩
  · nofun
  intro b hb
  obtain ⟨first, tail, hc, -, hascii, hwide⟩ := exists_utf8EncodeChar c
  rw [concat_eq_append, ofChars_append, ofChars_cons, hc, getLast?_append] at hb
  have hlast : (first :: tail ++ ofChars []).getLast? = some b := by
    cases hsome : (first :: tail ++ ofChars []).getLast? with
    | none => simp [ofChars] at hsome
    | some d => rw [hsome] at hb; exact hb
  by_contra hword
  have hlt := lt_of_isWordByte (by simpa using hword)
  rw [show ofChars [] = [] from rfl, append_nil] at hlast
  cases tail with
  | nil =>
    cases hlast
    exact hword (h c (by simp) _ hlt (eq_charOf hlt hc))
  | cons d tail =>
    rw [getLast?_cons_cons] at hlast
    have := hwide b (mem_of_getLast? hlast)
    rw [isContinuation_of_lt hlt] at this
    cases this

theorem startsApart_ofChars {cs : List Char} (h : ∀ c ∈ cs.head?, CharApart c) :
    StartsApart (ofChars cs) := by
  cases cs with
  | nil => nofun
  | cons c cs =>
    obtain ⟨b, hb, -, hascii⟩ := @Pattern.head?_ofChars c cs
    intro d hd
    rw [hb] at hd
    rw [← Option.some.inj hd]
    by_contra hword
    have hlt := lt_of_isWordByte (by simpa using hword)
    exact hword (h c rfl b hlt (hascii hlt))

theorem solid_ofChars (h : ∀ b, isBlank b → charOf b ∉ cs) : ∀ b ∈ ofChars cs, isBlank b = false := by
  intro b hb
  by_contra hblank
  rw [Bool.not_eq_false] at hblank
  obtain ⟨s, r, hsplit⟩ := append_of_mem hb
  obtain ⟨a, z, rfl, -, -⟩ := exists_of_ofChars_eq (lt_of_isBlank hblank) hsplit
  exact h b hblank (by simp)

/-- What stands before the first character that `p` accepts, and the character. -/
theorem exists_first (p : Char → Bool) (cs : List Char) :
    (∀ c ∈ cs, p c = false) ∨ ∃ x c y, cs = x ++ c :: y ∧ p c ∧ ∀ d ∈ x, p d = false := by
  by_cases h : cs.all fun c => !p c
  · exact .inl fun c hc => by simpa using all_eq_true.mp h c hc
  · obtain ⟨c, y, hsplit, hc⟩ := exists_leading h
    exact .inr ⟨_, c, y, hsplit, by simpa using hc, fun d hd => by simpa using mem_takeWhile_imp hd⟩

/-- **A word stands between white space.** -/
theorem mem_getLast?_append_cons {x a : List Char} {c d : Char} (h : d ∈ (x ++ c :: a).getLast?) :
    d = c ∨ d ∈ a.getLast? := by
  rw [getLast?_append, getLast?_cons] at h
  cases hlast : a.getLast? with
  | none =>
    rw [hlast] at h
    exact .inl (Option.some.inj h).symm
  | some e =>
    rw [hlast] at h
    exact .inr h

theorem exists_of_mem_charWords {w : List Char} (h : w ∈ charWords cs) :
    ∃ a z, cs = a ++ w ++ z ∧ (∀ c ∈ a.getLast?, isWhiteSpace c) ∧ (∀ c ∈ z.head?, isWhiteSpace c) ∧
      ∀ c ∈ w, isWhiteSpace c = false := by
  have hnone : ∀ {x : List Char}, (∀ c ∈ x, isWhiteSpace c = false) → w ∈ charWords x → w = x := by
    intro x hx hw
    rw [charWords_eq, splitOnP_eq_singleton hx] at hw
    exact mem_singleton.mp (mem_filter.mp hw).1
  -- The words behind the first white space are those of a shorter list.
  induction hn : cs.length using Nat.strong_induction_on generalizing cs with
  | _ n ih =>
    rcases exists_first isWhiteSpace cs with hsolid | ⟨x, c, y, rfl, hc, hx⟩
    · obtain rfl := hnone hsolid h
      exact ⟨[], [], by simp, nofun, nofun, hsolid⟩
    rw [charWords_append_cons hc, mem_append] at h
    rcases h with h | h
    · obtain rfl := hnone hx h
      exact ⟨[], c :: y, rfl, nofun, fun d hd => Option.mem_some.mp hd ▸ hc, hx⟩
    · obtain ⟨a, z, rfl, ha, hz, hw⟩ := ih y.length (by simp at hn; omega) h rfl
      refine ⟨x ++ c :: a, z, by simp, fun d hd => ?_, hz, hw⟩
      rcases mem_getLast?_append_cons hd with rfl | hd
      · exact hc
      · exact ha d hd

/-- The characters with spaces around every `&`. -/
def spaced (cs : List Char) : List Char := cs.flatMap fun c => if c == '&' then [' ', '&', ' '] else [c]

theorem spaceReferences_append (s t : Text) :
    Parameter.spaceReferences (s ++ t) = Parameter.spaceReferences s ++ Parameter.spaceReferences t :=
  flatMap_append

theorem spaceReferences_ofChars (cs : List Char) :
    Parameter.spaceReferences (ofChars cs) = ofChars (spaced cs) := by
  induction cs with
  | nil => rfl
  | cons c cs ih =>
    have hchar : Parameter.spaceReferences (String.utf8EncodeChar c) =
        ofChars (if c == '&' then [' ', '&', ' '] else [c]) := by
      by_cases hc : c = '&'
      · subst hc
        decide
      · have hnot : 38 ∉ String.utf8EncodeChar c := by
          intro hmem
          obtain ⟨s, r, hsplit⟩ := append_of_mem hmem
          have hsingle : ofChars [c] = s ++ 38 :: r := by rw [ofChars_cons, hsplit]; simp [ofChars]
          obtain ⟨a, z, hcs, -, -⟩ := exists_of_ofChars_eq (by decide) hsingle
          rcases a with _ | ⟨d, a⟩
          · exact hc (cons.inj hcs).1
          · simp at hcs
        rw [Parameter.spaceReferences_of_not_mem hnot]
        simp [hc, ofChars]
    have hspaced : spaced (c :: cs) = (if c == '&' then [' ', '&', ' '] else [c]) ++ spaced cs := flatMap_cons
    rw [ofChars_cons, spaceReferences_append, ih, hchar, hspaced, ofChars_append]

/-- A word of a text with spaces around every `&` is an `&`, or it stands in the text between white
space and `&`. -/
theorem exists_of_mem_charWords_spaced {w : List Char} (h : w ∈ charWords (spaced cs)) :
    w = ['&'] ∨ ∃ a z, cs = a ++ w ++ z ∧ (∀ c ∈ a.getLast?, isWhiteSpace c ∨ c = '&') ∧
      (∀ c ∈ z.head?, isWhiteSpace c ∨ c = '&') ∧ ∀ c ∈ w, isWhiteSpace c = false := by
  have hkeep : ∀ {x : List Char}, (∀ c ∈ x, (c == '&') = false) → spaced x = x := by
    intro x hx
    unfold spaced
    induction x with
    | nil => rfl
    | cons c x ih =>
      obtain ⟨hc, hx⟩ := forall_mem_cons.mp hx
      rw [flatMap_cons, hc, ih hx]
      rfl
  induction hn : cs.length using Nat.strong_induction_on generalizing cs with
  | _ n ih =>
    rcases exists_first (· == '&') cs with hnone | ⟨x, c, y, rfl, hc, hx⟩
    · rw [hkeep hnone] at h
      obtain ⟨a, z, rfl, ha, hz, hw⟩ := exists_of_mem_charWords h
      exact .inr ⟨a, z, rfl, fun c hc => .inl (ha c hc), fun c hc => .inl (hz c hc), hw⟩
    obtain rfl := beq_iff_eq.mp hc
    have hspaced : spaced (x ++ '&' :: y) = x ++ ' ' :: ('&' :: [] ++ ' ' :: spaced y) := by
      conv => rhs; rw [← hkeep hx]
      simp [spaced]
    rw [hspaced, charWords_append_cons rfl, charWords_append_cons rfl, mem_append, mem_append] at h
    rcases h with h | h | h
    · obtain ⟨a, z, rfl, ha, hz, hw⟩ := exists_of_mem_charWords h
      refine .inr ⟨a, z ++ '&' :: y, by simp, fun c hc => .inl (ha c hc), fun c hc => ?_, hw⟩
      cases z with
      | nil => exact .inr (Option.some.inj hc).symm
      | cons d z => exact .inl (hz c hc)
    · exact .inl (mem_singleton.mp h)
    · rcases ih y.length (by simp at hn; omega) h rfl with hw | ⟨a, z, rfl, ha, hz, hw⟩
      · exact .inl hw
      · refine .inr ⟨x ++ '&' :: a, z, by simp, fun d hd => ?_, hz, hw⟩
        exact (mem_getLast?_append_cons hd).elim .inr (ha d)

end GlslToMetal.Text
