import GlslToMetal.Ambient.Basic
import GlslToMetal.Program

/-! Which functions use which ambient values. A function uses a value when its body holds the name
as a whole word and no parameter has that name. The entry point is left out: it declares the values
itself. -/

namespace GlslToMetal

/-- A function that uses ambient values: its name, its arity, its position among the functions of
the program, and the values in the order of their names. -/
structure Use where
  name : Text
  arity : Nat
  index : Nat
  ambients : List Text
  deriving DecidableEq, Repr

namespace Use

def before (a b : Use) : Bool :=
  a.name < b.name ||
    (a.name == b.name && (a.arity < b.arity || (a.arity == b.arity && a.index < b.index)))

def place (u : Use) : List Use → List Use
  | [] => [u]
  | v :: rest => if v.before u then v :: place u rest else u :: v :: rest

end Use

def Text.placeName (name : Text) : List Text → List Text
  | [] => [name]
  | other :: rest =>
    if other < name then other :: placeName name rest
    else if other == name then other :: rest
    else name :: other :: rest

namespace Usage

def namesUsed (masked : Text) (ambients : List Ambient) (f : Signature) (body : Range) :
    Checked (List Text) := do
  let content ← masked.slice body
  let used := ambients.filter fun a => !f.hasParam a.name && content.containsWord a.name
  return used.foldl (fun names a => a.name.placeName names) []

def ofFunction? (masked : Text) (ambients : List Ambient) (found? : Option Signature)
    (f : Signature) (index : Nat) : Checked (Option Use) := do
  if found?.any (·.range.start == f.range.start) then return none
  let some body := f.body? | return none
  let names ← namesUsed masked ambients f body
  return if names.isEmpty then none else some ⟨f.name, f.arity, index, names⟩

def discover (source : Text) (ambients : List Ambient) : Checked (List Use) := do
  let functions ← Program.functions source
  let found? := Program.entryPoint? functions
  let found ← functions.zipIdx.mapM fun (f, index) =>
    ofFunction? source.mask ambients found? f index
  return (found.filterMap id).foldr Use.place []

def usersOf (uses : List Use) (ambient : Text) : List Use :=
  uses.filter (·.ambients.contains ambient)

def ambientsOf? (uses : List Use) (name : Text) (arity : Nat) : Option (List Text) :=
  (uses.find? fun u => u.name == name && u.arity == arity).map (·.ambients)

end Usage

end GlslToMetal
