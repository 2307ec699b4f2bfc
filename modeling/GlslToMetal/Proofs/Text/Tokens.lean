import GlslToMetal.Unicode.WordChar
import Mathlib.Data.List.SplitBy

/-! Tokens. Characters are cut into the maximal runs of word characters and the stretches between them.
All that matters of such a division is that a run of word characters has no word character on either
side. -/

namespace GlslToMetal.Text

open List Unicode

/-- The maximal runs of word characters and the stretches between them, in order. -/
def tokens (cs : List Char) : List (List Char) := cs.splitBy fun a b => isWordChar a == isWordChar b

/-- Parts behind the character `before`: whole words, and parts without word characters. -/
inductive Parted : Option Char → List (List Char) → Prop where
  | nil {before : Option Char} : Parted before []
  | word {before : Option Char} {w : List Char} {ws : List (List Char)} : w ≠ [] → (∀ c ∈ w, isWordChar c) →
      before.any isWordChar = false → ws.flatten.head?.any isWordChar = false → Parted w.getLast? ws →
      Parted before (w :: ws)
  | gap {before : Option Char} {w : List Char} {ws : List (List Char)} : w ≠ [] →
    (∀ c ∈ w, isWordChar c = false) →
      Parted w.getLast? ws → Parted before (w :: ws)

theorem flatten_tokens (cs : List Char) : (tokens cs).flatten = cs := flatten_splitBy _ cs

/-- The characters of a chain in which neighbours are of one kind are of one kind. -/
theorem isWordChar_eq_of_isChain {c : Char} {w : List Char}
    (h : (c :: w).IsChain fun a b => (isWordChar a == isWordChar b) = true) :
    ∀ d ∈ c :: w, isWordChar d = isWordChar c := by
  induction w generalizing c with
  | nil => simp
  | cons e w ih =>
    obtain ⟨hce, htail⟩ := isChain_cons_cons.mp h
    intro d hd
    rcases mem_cons.mp hd with rfl | hd
    · rfl
    · rw [ih htail d hd, beq_iff_eq.mp hce]

/-- Where each token has a word character beside it only if it has none itself, tokens are parts. -/
theorem parted_of_isChain {ws : List (List Char)}
    (hkind : ∀ w ∈ ws, ∃ c v, w = c :: v ∧ ∀ d ∈ w, isWordChar d = isWordChar c)
    (hchain : ws.IsChain fun a b => ∃ ha hb, (isWordChar (a.getLast ha) == isWordChar (b.head hb)) = false)
    {before : Option Char} (hbefore : ∀ d ∈ before, ∀ c ∈ ws.flatten.head?, isWordChar d ≠ isWordChar c) :
    Parted before ws := by
  induction ws generalizing before with
  | nil => exact .nil
  | cons w ws ih =>
    obtain ⟨c, v, rfl, hv⟩ := hkind w mem_cons_self
    have hlast : ∀ d ∈ (c :: v).getLast?, isWordChar d = isWordChar c := fun d hd => hv d (mem_of_getLast? hd)
    have hnext : ∀ e ∈ ws.flatten.head?, isWordChar c ≠ isWordChar e := by
      intro e he
      cases ws with
      | nil => cases he
      | cons x ws =>
        obtain ⟨e', y, rfl, -⟩ := hkind x (mem_cons_of_mem _ mem_cons_self)
        obtain rfl : e' = e := Option.some.inj he
        obtain ⟨ha, hb, hdiffer⟩ := (isChain_cons_cons.mp hchain).1
        rw [hlast _ (getLast?_eq_some_getLast ha)] at hdiffer
        exact beq_eq_false_iff_ne.mp hdiffer
    have hrest : Parted (c :: v).getLast? ws := by
      refine ih (fun x hx => hkind x (mem_cons_of_mem _ hx)) hchain.tail fun d hd => ?_
      rw [hlast d hd]
      exact hnext
    cases hc : isWordChar c with
    | false => exact .gap (cons_ne_nil _ _) (fun d hd => (hv d hd).trans hc) hrest
    | true =>
      refine .word (cons_ne_nil _ _) (fun d hd => (hv d hd).trans hc) ?_ ?_ hrest
      · cases before with
        | none => rfl
        | some d => exact Bool.eq_false_iff.mpr fun h => hbefore d rfl c rfl (h.trans hc.symm)
      · cases hhead : ws.flatten.head? with
        | none => rfl
        | some e => exact Bool.eq_false_iff.mpr fun h => hnext e hhead (hc.trans h.symm)

/-- **Tokens are parts.** -/
theorem parted_tokens (cs : List Char) : Parted none (tokens cs) := by
  refine parted_of_isChain (fun w hw => ?_)
    (isChain_getLast_head_splitBy (isWordChar · == isWordChar ·) cs) (by simp)
  obtain ⟨c, v, rfl⟩ := exists_cons_of_ne_nil (ne_nil_of_mem_splitBy hw)
  exact ⟨c, v, rfl, isWordChar_eq_of_isChain (isChain_of_mem_splitBy hw)⟩

end GlslToMetal.Text
