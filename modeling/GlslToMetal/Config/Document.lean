import GlslToMetal.Config.Basic
import GlslToMetal.Toml.Parser
import GlslToMetal.Toml.Printer

/-! Settings as a TOML document. Keys that mean nothing are passed over and missing keys mean the
defaults, but a value of the wrong kind makes the whole document mean nothing. A section may also be
an array of its values in order. -/

namespace GlslToMetal.Config

open Toml (Value Table)

def string? : Value → Option String
  | .string s => some s
  | _ => none

def boolean? : Value → Option Bool
  | .boolean b => some b
  | _ => none

def strings? : Value → Option (List String)
  | .array items => items.mapM string?
  | _ => none

def isUnit : Value → Bool
  | .array [] => true
  | .table _ [] => true
  | _ => false

def choice? {α : Type} (ofName? : String → Option α) : Value → Option α
  | .string s => ofName? s
  | .table _ [(key, v)] => if isUnit v then ofName? key else none
  | _ => none

def section? (keys : List String) : Value → Option Table
  | .table _ entries => some entries
  | .array items => some (keys.zip items)
  | .dateTime => some []
  | _ => none

def field? {α : Type} (t : Table) (key : String) (decode : Value → Option α) (default : α) :
    Option α :=
  match t.get? key with
  | none => some default
  | some v => decode v

def loweringKeys : List String :=
  ["entry_symbol", "propagation", "mod_semantics", "disabled_stages", "print_stages",
    "plain_diagnostics"]

def lowering? (v : Value) : Option LoweringConfig := do
  let t ← section? loweringKeys v
  return {
    entrySymbol? := ← field? t "entry_symbol" (fun v => (string? v).map some) none
    propagation := ← field? t "propagation" (choice? Propagation.ofName?) .singleHop
    modulus := ← field? t "mod_semantics" (choice? Modulus.ofName?) .approximate
    disabledStages := ← field? t "disabled_stages" strings? []
    printStages := ← field? t "print_stages" boolean? false
    plainDiagnostics := ← field? t "plain_diagnostics" boolean? false }

def toolchain? (v : Value) : Option Toolchain := do
  let t ← section? ["program", "args"] v
  return {
    program := ← field? t "program" string? Toolchain.xcrun.program
    args := ← field? t "args" strings? Toolchain.xcrun.args }

def effects? : Value → Option (EffectKind → Option String)
  | .table _ entries => do
    let paths ← entries.mapM fun (key, v) => do return (← EffectKind.ofName? key, ← string? v)
    return fun kind => paths.lookup kind
  | _ => none

def ofTable? (t : Table) : Option Config := do
  return {
    lowering := ← field? t "transpile" lowering? {}
    toolchain := ← field? t "compiler" toolchain? .xcrun
    effects := ← field? t "effects" effects? fun _ => none }

def parse? (source : Text) : Option Config := Toml.parse? source.chars >>= ofTable?

def line (key value : String) : String := key ++ " = " ++ value ++ "\n"

def render (c : Config) : String :=
  let l := c.lowering
  "[transpile]\n" ++
    (l.entrySymbol?.map fun s => line "entry_symbol" (Toml.quote s)).getD "" ++
    line "propagation" (Toml.quote l.propagation.name) ++
    line "mod_semantics" (Toml.quote l.modulus.name) ++
    line "disabled_stages" (Toml.strings l.disabledStages) ++
    line "print_stages" (Toml.boolean l.printStages) ++
    line "plain_diagnostics" (Toml.boolean l.plainDiagnostics) ++
    "\n[compiler]\n" ++
    line "program" (Toml.quote c.toolchain.program) ++
    line "args" (Toml.strings c.toolchain.args) ++
    "\n[effects]\n" ++
    String.join (c.effectPaths.map fun (kind, path) => line kind.name (Toml.quote path))

end GlslToMetal.Config
