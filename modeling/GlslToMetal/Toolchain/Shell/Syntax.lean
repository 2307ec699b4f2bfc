/-! Shell scripts as trees. A word is a list of fragments, which keep apart what stands in quotes;
what a parameter, a substitution or an expression stands for is found only when the script runs. -/

namespace GlslToMetal.Shell

/-- How a redirection opens its file. -/
inductive Mode where
  | read
  | write
  | append
  deriving DecidableEq, Repr

mutual

/-- A piece of a word. What stands in quotes is not split into fields. -/
inductive Fragment where
  | plain (c : Char)
  | quoted (c : Char)
  /-- Quotes around nothing. -/
  | nothing
  /-- A parameter, with a word in the place of no value. -/
  | parameter (quoted : Bool) (name : String) (fallback : List Fragment)
  /-- What commands print. -/
  | substitution (quoted : Bool) (body : List Command)
  | arithmetic (quoted : Bool) (expression : List Fragment)

inductive Redirection where
  | file (descriptor : Nat) (mode : Mode) (target : List Fragment)
  /-- Makes a descriptor another name of one that is open. -/
  | copy (descriptor : Nat) (target : List Fragment)

inductive Command where
  | simple (line : Nat) (assignments : List (String × List Fragment))
      (words : List (List Fragment)) (redirections : List Redirection)
  /-- Commands of which each reads what the one before it prints. -/
  | pipe (stages : List Command)
  | not (c : Command)
  | and (first second : Command)
  | or (first second : Command)
  /-- Runs in the shell itself, or in one of its own. -/
  | group (apart : Bool) (body : List Command) (redirections : List Redirection)
  | choose (condition body alternative : List Command)
  | loop (untilTrue : Bool) (condition body : List Command)
  | each (name : String) (words : List (List Fragment)) (body : List Command)

end

abbrev Word := List Fragment

abbrev Script := List Command

end GlslToMetal.Shell
