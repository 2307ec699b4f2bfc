import GlslToMetal.Signature

/-! Overloads. Functions of one name and one number of parameters are one overload, told apart by
the number that they had before any value was threaded. Threading appends parameters and never adds
or removes a function, so the position of a function tells its overload all along; a call tells it
by the number of its arguments and by the threaded names at their end. -/

namespace GlslToMetal

/-- An overload as it was declared, and the ambient values threaded into it so far. -/
structure Overload where
  name : Text
  arity : Nat
  threaded : List Text
  deriving DecidableEq, Repr

/-- The overloads of a program, and which of them each function is. -/
structure Overloads where
  ofFunction : List Nat
  table : List Overload
  deriving DecidableEq, Repr

namespace Overloads

def enter (o : Overloads) (f : Signature) : Overloads :=
  match o.table.findIdx? fun v => v.name == f.name && v.arity == f.arity with
  | some id => { o with ofFunction := o.ofFunction ++ [id] }
  | none => ⟨o.ofFunction ++ [o.table.length], o.table ++ [⟨f.name, f.arity, []⟩]⟩

def collect (functions : List Signature) : Overloads := functions.foldl enter ⟨[], []⟩

def accepts (v : Overload) (name : Text) (args : List Text) : Bool :=
  v.name == name && v.arity + v.threaded.length == args.length && args.drop v.arity == v.threaded

/-- The overload that a call with these arguments means: of those that it could mean, the one with
most values threaded. -/
def resolve? (o : Overloads) (name : Text) (args : List Text) : Option Nat :=
  (o.table.zipIdx.foldl (fun best (v, id) =>
    if accepts v name args && (best.all fun (n, _) => n ≤ v.threaded.length) then
      some (v.threaded.length, id)
    else best) (none : Option (Nat × Nat))).map Prod.snd

def thread (o : Overloads) (ids : List Nat) (ambient : Text) : Overloads :=
  { o with table := o.table.zipIdx.map fun (v, id) =>
      if ids.contains id then { v with threaded := v.threaded ++ [ambient] } else v }

end Overloads

end GlslToMetal
