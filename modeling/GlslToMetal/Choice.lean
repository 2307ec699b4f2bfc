/-! Choices by name. -/

namespace GlslToMetal

/-- A word that names none of the choices. -/
structure UnknownName where
  /-- What the choices are. -/
  kind : String
  word : String
  deriving DecidableEq, Repr

def UnknownName.message (u : UnknownName) : String := "unknown " ++ u.kind ++ " `" ++ u.word ++ "`"

def choose {α : Type} (kind : String) (ofName? : String → Option α) (word : String) :
    Except UnknownName α :=
  match ofName? word with
  | some a => .ok a
  | none => .error ⟨kind, word⟩

end GlslToMetal
