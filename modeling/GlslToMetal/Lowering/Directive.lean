import GlslToMetal.Diagnostic.Basic
import GlslToMetal.Lowering.Step
import GlslToMetal.Pattern

/-! Directives without a meaning in Metal: version, extension and pragma lines, precision
statements, and precision qualifiers. The three kinds are taken out one after the other, each from
what the one before left. -/

namespace GlslToMetal.Directive

open Pattern Unicode

/-- A line that starts with one of the directives to strip, with its newline. A backslash at the end
of the line does not continue it. -/
def directiveLine : Pattern := fun before cs => do
  guard (before.all (· == '\n'))
  let cs ← char (· == '#') (cs.dropWhile isInlineBlank)
  let cs ← oneOf ["version", "extension", "pragma"] (cs.dropWhile isInlineBlank)
  let cs ← wordEnd cs
  return (cs.dropWhile (· != '\n')).drop 1

def precisions : List String := ["highp", "mediump", "lowp"]

/-- A statement that sets the precision of a type, with the blanks and the newline behind it. -/
def precisionStatement : Pattern := fun before cs => do
  guard (atWordStart before)
  let cs ← literal "precision" cs
  let cs ← run isWhiteSpace cs
  let cs ← oneOf precisions cs
  let cs ← run isWhiteSpace cs
  let cs ← run isWordChar cs
  let cs ← char (· == ';') (cs.dropWhile isWhiteSpace)
  let cs := cs.dropWhile isInlineBlank
  return if cs.head? == some '\n' then cs.drop 1 else cs

def precisionQualifier : Pattern := fun before cs => do
  guard (atWordStart before)
  let cs ← oneOf precisions cs
  let cs ← wordEnd cs
  return cs.dropWhile isInlineBlank

def remove : List Pattern → Text → Checked (Nat × Text)
  | [], source => return (0, source)
  | p :: rest, source => do
    let edits := p.codeEdits source fun _ => []
    let (count, result) ← remove rest (← Edit.apply edits source)
    return (edits.length + count, result)

def removed (count : Nat) : Diagnostic where
  level := .info
  message := s!"removed {count} directive(s) and precision qualifier(s)"
  sourceContext := Step.directives.name

def strip (source : Text) : Checked (List Diagnostic × Text) := do
  let (count, result) ←
    remove [directiveLine, precisionStatement, precisionQualifier] source
  return (if count == 0 then [] else [removed count], result)

end GlslToMetal.Directive
