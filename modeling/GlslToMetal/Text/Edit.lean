import GlslToMetal.Text.Basic

/-! Edits of a text. Edits are collected in any order and applied together: in the order of their
starts, those with one start in the order in which they were given, each against the offsets of the
text before any of them. An edit that starts inside one already applied is dropped. -/

namespace GlslToMetal

/-- The range to take out and what to put there. -/
structure Edit where
  range : Range
  replacement : Text
  deriving DecidableEq, Repr

namespace Edit

def insert (i : Nat) (new : Text) : Edit := ⟨⟨i, i⟩, new⟩

def replace (r : Range) (new : Text) : Edit := ⟨r, new⟩

def place (e : Edit) : List Edit → List Edit
  | [] => [e]
  | f :: rest => if e.range.start ≤ f.range.start then e :: f :: rest else f :: place e rest

def ordered : List Edit → List Edit
  | [] => []
  | e :: rest => place e (ordered rest)

/-- Applies ordered edits to the text from `cursor` on. -/
def applyFrom (t : Text) (cursor : Nat) : List Edit → Checked Text
  | [] => t.slice ⟨cursor, t.length⟩
  | e :: rest =>
    if e.range.start < cursor then applyFrom t cursor rest
    else do
      let kept ← t.slice ⟨cursor, e.range.start⟩
      let after ← applyFrom t e.range.stop rest
      return kept ++ e.replacement ++ after

def apply (edits : List Edit) (t : Text) : Checked Text := applyFrom t 0 (ordered edits)

end Edit

end GlslToMetal
