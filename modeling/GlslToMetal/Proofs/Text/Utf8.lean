import GlslToMetal.Proofs.Text.Ascii
import Mathlib.Tactic.IntervalCases

/-! Texts in UTF-8. Decoding the bytes of some characters gives the characters back, so a text in
UTF-8 can be taken for its characters: the offsets between two of them are the places where it can
be cut. The octets of a wide character are all beyond ASCII, so an ASCII byte of such a text is a
character of its own, and the text can be cut before and behind it. -/

namespace GlslToMetal.Text

open List

variable {cs : List Char} {n : Nat} {s : Text} {b : UInt8}

theorem toNat_octet (h : n < 256) : (UInt8.ofNat n).toNat = n := by
  simp only [UInt8.toNat_ofNat']
  omega

theorem not_ofNat_lt (h : n < 256) (hb : b.toNat ≤ n) : ¬ UInt8.ofNat n < b := by
  rw [UInt8.lt_iff_toNat_lt, toNat_octet h]
  omega

theorem ofNat_lt (h : n < 256) (hb : n < b.toNat) : UInt8.ofNat n < b := by
  rwa [UInt8.lt_iff_toNat_lt, toNat_octet h]

theorem ofNat_beq (h : n < 256) (b : UInt8) : (UInt8.ofNat n == b) = (n == b.toNat) := by
  rw [Bool.eq_iff_iff, beq_iff_eq, beq_iff_eq, ← UInt8.toNat_inj, toNat_octet h]

theorem firstOctet_two (h : 2 ≤ n) (h' : n < 32) :
    firstOctet (UInt8.ofNat (n + 192)) = ([], some ⟨0, n, 0x80, 0xBF⟩) := by
  unfold firstOctet
  rw [if_neg (not_ofNat_lt (by omega) (by simp)),
    if_neg (not_ofNat_lt (by omega) (by simp; omega)), if_pos (ofNat_lt (by omega) (by simp; omega)),
    toNat_octet (by omega), Nat.add_sub_cancel]

/-- The octet that opens a character of three: the next octet has bounds of its own behind the
first and the fourteenth of these. -/
theorem firstOctet_three (h : n < 16) : firstOctet (UInt8.ofNat (n + 224)) =
      ([], some ⟨1, n, if n = 0 then 0xA0 else 0x80, if n = 13 then 0x9F else 0xBF⟩) := by
  have hlow : ∀ b : UInt8, b.toNat ≤ 224 → ¬ UInt8.ofNat (n + 224) < b :=
    fun b hb => not_ofNat_lt (by omega) (by omega)
  have hhigh : UInt8.ofNat (n + 224) < 0xF0 := ofNat_lt (by omega) (by simp; omega)
  unfold firstOctet
  rw [if_neg (hlow _ (by decide)), if_neg (hlow _ (by decide)), if_neg (hlow _ (by decide)),
    ofNat_beq (by omega), ofNat_beq (by omega), if_pos hhigh, toNat_octet (by omega)]
  by_cases h0 : n = 0
  · subst h0
    rfl
  by_cases h13 : n = 13
  · subst h13
    rfl
  · simp [h0, h13]

theorem firstOctet_four (h : n < 5) : firstOctet (UInt8.ofNat (n + 240)) =
      ([], some ⟨2, n, if n = 0 then 0x90 else 0x80, if n = 4 then 0x8F else 0xBF⟩) := by
  interval_cases n <;> rfl

theorem nextOctet_ofNat {owed code : Nat} {low high : UInt8} (h : n < 64)
    (hlow : low.toNat ≤ n + 128) (hhigh : n + 128 ≤ high.toNat) :
    nextOctet ⟨owed, code, low, high⟩ (UInt8.ofNat (n + 128)) = match owed with
      | 0 => ([Char.ofNat (code * 64 + n)], none)
      | owed + 1 => ([], some ⟨owed, code * 64 + n, 0x80, 0xBF⟩) := by
  have hin : low ≤ UInt8.ofNat (n + 128) ∧ UInt8.ofNat (n + 128) ≤ high := by
    rw [UInt8.le_iff_toNat_le, UInt8.le_iff_toNat_le, toNat_octet (by omega)]
    exact ⟨hlow, hhigh⟩
  unfold nextOctet
  cases owed <;>
    simp only [hin, decide_true, Bool.and_self, if_true, toNat_octet (show n + 128 < 256 by omega),
      Nat.add_sub_cancel]

/-- **Decoding a character gives it back.** -/
theorem decodeFrom_utf8EncodeChar (c : Char) (rest : Text) :
    decodeFrom none (String.utf8EncodeChar c ++ rest) = c :: decodeFrom none rest := by
  have hc : Char.ofNat c.val.toNat = c := Char.ofNat_toNat c
  have hvalid : c.val.toNat < 0xD800 ∨ 0xDFFF < c.val.toNat ∧ c.val.toNat < 0x110000 := c.valid
  unfold String.utf8EncodeChar
  generalize c.val.toNat = v at hc hvalid
  dsimp only
  split
  · next h =>
    have hlt : UInt8.ofNat v < 0x80 := ofNat_lt (by omega) (by simp; omega)
    simp [decodeFrom, octet, firstOctet, hlt, toNat_octet (show v < 256 by omega), hc]
  split
  · next h h' =>
    have hcode : v / 64 % 32 * 64 + v % 64 = v := by omega
    simp only [cons_append, nil_append, decodeFrom, octet]
    rw [firstOctet_two (by omega) (by omega)]
    dsimp only
    rw [nextOctet_ofNat (by omega) (by simp) (by simp; omega), hcode, hc]
    rfl
  split
  · next h h' h'' =>
    have hcode : (v / 4096 % 16 * 64 + v / 64 % 64) * 64 + v % 64 = v := by omega
    simp only [cons_append, nil_append, decodeFrom, octet]
    rw [firstOctet_three (by omega)]
    dsimp only
    rw [nextOctet_ofNat (by omega) (by split <;> simp; omega) (by split <;> simp <;> omega)]
    dsimp only
    rw [nextOctet_ofNat (by omega) (by simp) (by simp; omega), hcode, hc]
    rfl
  · next h h' h'' =>
    have hcode : ((v / 262144 % 8 * 64 + v / 4096 % 64) * 64 + v / 64 % 64) * 64 + v % 64 = v := by
      omega
    simp only [cons_append, nil_append, decodeFrom, octet]
    rw [firstOctet_four (by omega)]
    dsimp only
    rw [nextOctet_ofNat (by omega) (by split <;> simp; omega) (by split <;> simp <;> omega)]
    dsimp only
    rw [nextOctet_ofNat (by omega) (by simp) (by simp; omega)]
    dsimp only
    rw [nextOctet_ofNat (by omega) (by simp) (by simp; omega), hcode, hc]
    rfl

@[simp] theorem chars_ofChars (cs : List Char) : (ofChars cs).chars = cs := by
  unfold chars
  induction cs with
  | nil => rfl
  | cons c cs ih => rw [ofChars, flatMap_cons, decodeFrom_utf8EncodeChar, ← ofChars, ih]

theorem ofChars_injective : Function.Injective ofChars := Function.LeftInverse.injective chars_ofChars

theorem ofChars_append (a b : List Char) : ofChars (a ++ b) = ofChars a ++ ofChars b :=
  flatMap_append

theorem ofChars_cons (c : Char) (cs : List Char) :
    ofChars (c :: cs) = String.utf8EncodeChar c ++ ofChars cs := rfl

/-! Where a text in UTF-8 can be cut. -/

theorem isContinuation_ofNat (h : n < 256) :
    isContinuation (UInt8.ofNat n) = (decide (128 ≤ n) && decide (n < 192)) := by
  simp [isContinuation, UInt8.le_iff_toNat_le, UInt8.lt_iff_toNat_lt, toNat_octet h]

/-- The first octet of a character continues no other, and is ASCII only if it is the whole of the
character. The octets behind it continue the character. -/
theorem exists_utf8EncodeChar (c : Char) :
    ∃ b tail, String.utf8EncodeChar c = b :: tail ∧ isContinuation b = false ∧
      (b < 128 → tail = []) ∧ ∀ d ∈ tail, isContinuation d := by
  have hbeyond : ∀ n, n < 128 → ¬ UInt8.ofNat (n + 128) < 128 :=
    fun n hn => not_ofNat_lt (by omega) (by simp)
  have hcontinues : ∀ n, isContinuation (UInt8.ofNat (n % 64 + 128)) := by
    intro n
    rw [isContinuation_ofNat (by omega)]
    simp
    omega
  have hvalid : c.val.toNat < 0xD800 ∨ 0xDFFF < c.val.toNat ∧ c.val.toNat < 0x110000 := c.valid
  unfold String.utf8EncodeChar
  generalize c.val.toNat = v at hvalid
  dsimp only
  split
  · refine ⟨_, _, rfl, ?_, fun _ => rfl, by simp⟩
    rw [isContinuation_ofNat (by omega)]
    simp
    omega
  split
  · refine ⟨_, _, rfl, ?_, fun h => absurd h (hbeyond (v / 64 % 32 + 64) (by omega)), ?_⟩
    · rw [isContinuation_ofNat (by omega)]
      simp
    · simp only [mem_singleton, forall_eq]
      exact hcontinues _
  split
  · refine ⟨_, _, rfl, ?_, fun h => absurd h (hbeyond (v / 4096 % 16 + 96) (by omega)), ?_⟩
    · rw [isContinuation_ofNat (by omega)]
      simp
    · simp only [mem_cons, not_mem_nil, or_false, forall_eq_or_imp, forall_eq]
      exact ⟨hcontinues _, hcontinues _⟩
  · refine ⟨_, _, rfl, ?_, fun h => absurd h (hbeyond (v / 262144 % 8 + 112) (by omega)), ?_⟩
    · rw [isContinuation_ofNat (by omega)]
      simp
    · simp only [mem_cons, not_mem_nil, or_false, forall_eq_or_imp, forall_eq]
      exact ⟨hcontinues _, hcontinues _, hcontinues _⟩

theorem isBoundary_ofChars (t : Text) (cs : List Char) : (t ++ ofChars cs).isBoundary t.length = true := by
  unfold isBoundary
  rw [drop_left]
  cases cs with
  | nil => simp [ofChars]
  | cons c cs =>
    obtain ⟨b, tail, hc, hb, -⟩ := exists_utf8EncodeChar c
    rw [ofChars_cons, hc]
    simp [hb]

theorem eq_charOf {c : Char} (hb : b < 128) (h : String.utf8EncodeChar c = [b]) : c = charOf b := by
  have hchars := chars_ofChars [c]
  rw [ofChars_cons, h, show ofChars [] = [] from rfl, append_nil,
    chars_of_isAscii (by simpa [IsAscii] using hb)] at hchars
  simpa using hchars.symm

/-- **An ASCII byte of a text in UTF-8 is a character of its own.** -/
theorem exists_of_ofChars_eq {r : Text} (hb : b < 128)
    (h : ofChars cs = s ++ b :: r) :
    ∃ a z, cs = a ++ charOf b :: z ∧ s = ofChars a ∧ r = ofChars z := by
  induction cs generalizing s with
  | nil => simp [ofChars] at h
  | cons c cs ih =>
    obtain ⟨d, tail, hc, -, hascii, hwide⟩ := exists_utf8EncodeChar c
    rw [ofChars_cons] at h
    rcases append_eq_append_iff.mp h with ⟨t, rfl, ht⟩ | ⟨t, hs, ht⟩
    · obtain ⟨a, z, rfl, rfl, rfl⟩ := ih ht
      exact ⟨c :: a, z, rfl, rfl, rfl⟩
    cases t with
    | nil =>
      rw [append_nil] at hs
      obtain ⟨a, z, rfl, ha, rfl⟩ := ih (s := []) ht.symm
      refine ⟨c :: a, z, rfl, ?_, rfl⟩
      rw [ofChars_cons, ← ha, append_nil, hs]
    | cons e t =>
      rw [cons_append, cons.injEq] at ht
      obtain ⟨rfl, rfl⟩ := ht
      rw [hc] at hs
      cases s with
      | nil =>
        obtain ⟨rfl, rfl⟩ := cons.inj hs
        obtain rfl := hascii hb
        exact ⟨[], cs, by rw [eq_charOf hb hc]; rfl, rfl, rfl⟩
      | cons x s =>
        obtain ⟨-, rfl⟩ := cons.inj hs
        have := hwide b (by simp)
        rw [isContinuation_of_lt hb] at this
        cases this

theorem charOf_mem_of_ofChars (hb : b < 128) (h : b ∈ ofChars cs) : charOf b ∈ cs := by
  obtain ⟨s, r, hsplit⟩ := append_of_mem h
  obtain ⟨a, z, rfl, -, -⟩ := exists_of_ofChars_eq hb hsplit
  exact mem_append_right a mem_cons_self

/-- A text in UTF-8 may be cut behind ASCII and before an octet that continues no character. -/
theorem exists_ofChars_append {t : Text} (h : ofChars cs = s ++ t)
    (hseam : (∀ b ∈ s.getLast?, b < 128) ∨ ∀ b ∈ t.head?, isContinuation b = false) :
    ∃ a z, cs = a ++ z ∧ s = ofChars a ∧ t = ofChars z := by
  rcases hseam with hlast | hhead
  · rcases eq_nil_or_concat s with rfl | ⟨s, b, rfl⟩
    · exact ⟨[], cs, rfl, rfl, h.symm⟩
    · have hb : b < 128 := hlast b (by simp)
      rw [concat_eq_append, append_assoc] at h
      obtain ⟨a, z, rfl, rfl, rfl⟩ := exists_of_ofChars_eq hb h
      refine ⟨a ++ [charOf b], z, by simp, ?_, rfl⟩
      rw [ofChars_append, ofChars_cons, utf8EncodeChar_charOf hb]
      simp [ofChars]
  · induction cs generalizing s with
    | nil =>
      obtain ⟨rfl, rfl⟩ := append_eq_nil_iff.mp h.symm
      exact ⟨[], [], rfl, rfl, rfl⟩
    | cons c cs ih =>
      obtain ⟨b, tail, hc, -, -, hwide⟩ := exists_utf8EncodeChar c
      rw [ofChars_cons] at h
      rcases append_eq_append_iff.mp h with ⟨u, rfl, hu⟩ | ⟨u, hs, ht⟩
      · obtain ⟨a, z, rfl, rfl, rfl⟩ := ih hu
        exact ⟨c :: a, z, rfl, rfl, rfl⟩
      cases s with
      | nil => exact ⟨[], c :: cs, rfl, rfl, by rw [ofChars_cons, ht, hs, nil_append]⟩
      | cons x s =>
        rw [hc, cons_append] at hs
        obtain ⟨rfl, rfl⟩ := cons.inj hs
        cases u with
        | nil => exact ⟨[c], cs, rfl, by simp [ofChars, hc], by simpa using ht⟩
        | cons d u =>
          have hd := hwide d (by simp)
          rw [hhead d (by simp [ht])] at hd
          cases hd

end GlslToMetal.Text
