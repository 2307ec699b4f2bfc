import GlslToMetal.Proofs.Text.Rewriting
import GlslToMetal.Proofs.Text.Utf8

/-! Masking and the places of a text. The place of an offset says whether the byte there stands in
code or in a comment. A text in UTF-8 is in UTF-8 also when it is masked, because a comment begins
and ends at characters of its own, and what is no space in the masked text stands in the text. -/

namespace GlslToMetal.Text

open List

theorem maskFrom_cons (p : Place) (b : UInt8) (t : Text) :
    maskFrom p (b :: t) = (maskByte p b t.head?).1 :: maskFrom (maskByte p b t.head?).2 t := rfl

/-- The place of the byte at an offset. -/
def placeAt (t : Text) (i : Nat) : Place := (maskUpTo .code (t.drop i).head? (t.take i)).2

theorem placeAt_append (s t : Text) : placeAt (s ++ t) s.length = (maskUpTo .code t.head? s).2 := by
  rw [placeAt, drop_left, take_left]

/-- The second byte of a mark is the byte of the mark. -/
def Place.Fits (p : Place) (next : Option UInt8) : Prop :=
  (p = .opening → next = some 42) ∧ (p = .closing → next = some 47)

theorem Place.fits_code (next : Option UInt8) : Place.code.Fits next := ⟨nofun, nofun⟩

theorem fits_maskByte (p : Place) (b : UInt8) (next : Option UInt8) : (maskByte p b next).2.Fits next := by
  unfold maskByte Place.Fits
  cases p with
  | code => dsimp only; (repeat' split) <;> simp_all
  | line => dsimp only; split <;> simp
  | opening => simp
  | block => dsimp only; split <;> simp_all
  | closing => simp

theorem fits_maskUpTo {p : Place} {next : Option UInt8} {s : Text} (h : p.Fits (s.head?.or next)) :
    (maskUpTo p next s).2.Fits next := by
  induction s generalizing p with
  | nil => exact h
  | cons b s ih => exact ih (fits_maskByte p b _)

/-- Masking keeps bytes beyond ASCII in code, and blanks them out in comments. -/
theorem maskFrom_wide {s : Text} (hs : ∀ b ∈ s, ¬ b < 128) {p : Place} (hp : p = .line ∨ p = .block)
    (t : Text) : maskFrom p (s ++ t) = replicate s.length 32 ++ maskFrom p t := by
  induction s with
  | nil => rfl
  | cons b s ih =>
    have hb : ¬ b < 128 := hs b mem_cons_self
    have hnewline : b ≠ newline := fun h => hb (h ▸ by decide)
    have hstar : b ≠ 42 := fun h => hb (h ▸ by decide)
    have hbyte : ∀ next, maskByte p b next = (32, p) := by
      intro next
      rcases hp with rfl | rfl <;> simp [maskByte, hnewline, hstar]
    rw [cons_append, maskFrom_cons, hbyte, ih fun c hc => hs c (mem_cons_of_mem _ hc)]
    rfl

/-- **The mask of a text in UTF-8 is in UTF-8.** -/
theorem exists_maskFrom_ofChars {p : Place} {cs : List Char} (hp : p.Fits (ofChars cs).head?) :
    ∃ ds, maskFrom p (ofChars cs) = ofChars ds := by
  induction cs generalizing p with
  | nil => exact ⟨[], rfl⟩
  | cons c cs ih =>
    obtain ⟨b, tail, hc, -, hascii, hwide⟩ := exists_utf8EncodeChar c
    rw [ofChars_cons, hc] at hp ⊢
    by_cases hb : b < 128
    · obtain rfl := hascii hb
      obtain ⟨ds, hds⟩ := ih (fits_maskByte p b (ofChars cs).head?)
      have hmasked : (maskByte p b (ofChars cs).head?).1 < 128 := by
        rcases maskByte_fst p b (ofChars cs).head? with h | h
        · rwa [h]
        · rw [h]
          decide
      refine ⟨charOf (maskByte p b (ofChars cs).head?).1 :: ds, ?_⟩
      rw [ofChars_cons, utf8EncodeChar_charOf hmasked, ← hds]
      rfl
    · have hall : ∀ d ∈ b :: tail, ¬ d < 128 := by
        refine forall_mem_cons.mpr ⟨hb, fun d hd hlt => ?_⟩
        have := hwide d hd
        rw [isContinuation_of_lt hlt] at this
        cases this
      have hspecial : ∀ {d : UInt8}, d < 128 → some b ≠ some d := by
        rintro d hd h
        cases h
        exact hb hd
      have hcomment : p = .line ∨ p = .block → ∃ ds, maskFrom p (b :: tail ++ ofChars cs) = ofChars ds := by
        intro hp
        obtain ⟨ds, hds⟩ := @ih p (by rcases hp with rfl | rfl <;> exact ⟨nofun, nofun⟩)
        refine ⟨(replicate (b :: tail).length 32).map charOf ++ ds, ?_⟩
        have hspaces : Text.IsAscii (replicate (b :: tail).length 32) := fun d hd => by
          rw [eq_of_mem_replicate hd]
          decide
        rw [maskFrom_wide hall hp, hds, ofChars_append, ofChars_map_charOf hspaces]
      cases p with
      | code =>
        obtain ⟨ds, hds⟩ := ih (Place.fits_code _)
        refine ⟨c :: ds, ?_⟩
        rw [maskFrom_code_append (fun h => hall 47 h (by decide)), hds, ofChars_cons, hc]
      | line => exact hcomment (.inl rfl)
      | block => exact hcomment (.inr rfl)
      | opening => exact absurd (hp.1 rfl) (hspecial (by decide))
      | closing => exact absurd (hp.2 rfl) (hspecial (by decide))

end GlslToMetal.Text
