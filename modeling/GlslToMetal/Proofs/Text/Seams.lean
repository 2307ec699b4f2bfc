import GlslToMetal.Proofs.Item.Trimming
import GlslToMetal.Proofs.Text.Standing
import Mathlib.Data.List.Chain
import Mathlib.Data.List.Infix

/-! Texts that are put together from parts. Where two parts meet, a word may go on, and a slash may open a
comment with the byte behind it. A part that begins and ends in code is masked on its own wherever it is put,
and its words are words of the whole, as long as nothing of this happens at its seams. -/

namespace GlslToMetal.Text

open List

variable {next : Option UInt8} {s t : Text}

theorem EndsWord.of_append {s t : Text} (h : EndsWord (s ++ t)) : EndsWord t := by
  intro b hb
  refine h b ?_
  rw [getLast?_append, Option.mem_def.mp hb]
  rfl

theorem StartsApart.of_append {s t : Text} (h : StartsApart (s ++ t)) : StartsApart s := by
  intro b hb
  refine h b ?_
  rw [head?_append, Option.mem_def.mp hb]
  rfl

/-! Texts without comments. -/

/-- No comment begins in the text. -/
def Bare (t : Text) : Prop := t.IsChain fun a b => a = 47 → b ≠ 47 ∧ b ≠ 42

/-- The text ends in code. -/
def EndsCode (t : Text) : Prop := (maskUpTo .code none t).2 = .code

theorem harmless_none : Harmless none := by decide

theorem maskUpTo_eq_mask (t : Text) : maskUpTo .code none t = (t.mask, (maskUpTo .code none t).2) :=
  Prod.ext (maskUpTo_none _ _) rfl

theorem Bare.maskUpTo (h : Bare t) (hnext : Harmless next) : maskUpTo .code next t = (t, .code) := by
  induction t with
  | nil => rfl
  | cons b t ih =>
    have hbyte : maskByte .code b (t.head?.or next) = (b, .code) := by
      have hharmless : b = 47 → Harmless (t.head?.or next) := by
        intro hb
        cases t with
        | nil => exact hnext
        | cons c t =>
          have := (isChain_cons_cons.mp h).1 hb
          simp [Harmless, this.1, this.2]
      by_cases hb : b = 47
      · have := hharmless hb
        simp [maskByte, this.1, this.2]
      · simp [maskByte, hb]
    have htail : Bare t := List.IsChain.tail h
    simp only [Text.maskUpTo, hbyte, ih htail]

theorem Bare.mask (h : Bare t) : t.mask = t := by
  rw [Text.mask, ← maskUpTo_none, h.maskUpTo harmless_none]

theorem Bare.endsCode (h : Bare t) : EndsCode t := by
  rw [EndsCode, h.maskUpTo harmless_none]

theorem bare_of_not_mem (h : 47 ∉ t) : Bare t := by
  induction t with
  | nil => exact isChain_nil
  | cons b t ih =>
    rw [mem_cons, not_or] at h
    cases t with
    | nil => exact isChain_singleton b
    | cons c t => exact isChain_cons_cons.mpr ⟨fun hb => absurd hb.symm h.1, ih h.2⟩

theorem harmless_of_maskByte {p : Place} {b : UInt8} (h : (maskByte p b next).1 = 47) : Harmless next := by
  obtain ⟨rfl, hcode⟩ := @maskByte_solid p b next (by rw [h]; rfl)
  rw [hcode] at h
  obtain rfl : b = 47 := h
  constructor <;> rintro rfl <;> exact absurd hcode (by decide)

/-- **No comment begins in a mask.** -/
theorem bare_mask (t : Text) : Bare t.mask := by
  have hfrom : ∀ p, Bare (maskFrom p t) := by
    induction t with
    | nil => exact fun _ => isChain_nil
    | cons b t ih =>
      intro p
      cases t with
      | nil => exact isChain_singleton _
      | cons c t =>
        have htail := ih (maskByte p b (some c)).2
        rw [maskFrom_cons, head?_cons]
        rw [maskFrom_cons] at htail ⊢
        refine isChain_cons_cons.mpr ⟨fun hslash => ?_, htail⟩
        obtain ⟨hline, hopen⟩ := harmless_of_maskByte hslash
        rcases maskByte_fst (maskByte p b (some c)).2 c t.head? with heq | heq <;> rw [heq]
        · exact ⟨fun h => hline (congrArg some h), fun h => hopen (congrArg some h)⟩
        · exact ⟨by decide, by decide⟩
  exact hfrom .code

theorem Bare.part (h : Bare t) (hs : s <:+: t) : Bare s := by
  obtain ⟨a, b, rfl⟩ := hs
  exact h.left_of_append.right_of_append

end GlslToMetal.Text
