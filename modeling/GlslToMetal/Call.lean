import GlslToMetal.Text.Delimiter
import GlslToMetal.Text.Identifier

/-! Calls in a masked text: whole words that name no member and have a parenthesis behind them. -/

namespace GlslToMetal

/-- A word with a parenthesis behind it. -/
structure Call where
  nameRange : Range
  openParen : Nat
  deriving DecidableEq, Repr

namespace Call

def openParen? (masked : Text) (nameRange : Range) : Option Nat :=
  if masked.before? nameRange.start == some 46 then none
  else (masked.nextNonBlank? nameRange.stop).filter fun i => masked[i]? == some 40

def sites (masked name : Text) : List Call :=
  (masked.findWord name).filterMap fun i =>
    let nameRange := ⟨i, i + name.length⟩
    (openParen? masked nameRange).map (Call.mk nameRange)

def closeParen? (masked : Text) (c : Call) : Option Nat := masked.matching? c.openParen

end Call

end GlslToMetal
