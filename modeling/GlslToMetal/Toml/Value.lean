/-! TOML documents. A table remembers how it came to be, because that decides who may add to it:
a table with a header of its own is closed to dotted keys and to a second header, one that only the
header of an inner table implies may still get its own, one that dotted keys made takes further
dotted keys, and an inline table takes nothing. -/

namespace GlslToMetal.Toml

/-- How a table was made. -/
inductive Origin where
  | header
  /-- By the header of a table inside it. -/
  | implied
  | dotted
  | inline
  deriving DecidableEq, Repr

/-- A value of a document. -/
inductive Value where
  | string (s : String)
  | integer (n : Int)
  | float
  | boolean (b : Bool)
  | dateTime
  | array (items : List Value)
  | table (origin : Origin) (entries : List (String × Value))
  /-- Tables with one header: the last, and those before it. -/
  | tables (earlier : List (List (String × Value))) (last : List (String × Value))

abbrev Table := List (String × Value)

namespace Table

def get? (t : Table) (key : String) : Option Value := t.lookup key

def replace (t : Table) (key : String) (value : Value) : Table :=
  t.map fun (k, v) => if k == key then (k, value) else (k, v)

def add? (t : Table) (key : String) (value : Value) : Option Table :=
  match t.get? key with
  | none => some (t ++ [(key, value)])
  | some _ => none

/-- Adds a value under a dotted key: the tables that the dots pass through are made, or are there
without a header of their own; the innermost has to be one that dotted keys made. -/
def addDotted? (key : String) (value : Value) : List String → Table → Option Table
  | [], t => t.add? key value
  | k :: ks, t => do
    match t.get? k with
    | none => t.add? k (.table .dotted (← addDotted? key value ks []))
    | some (.table .dotted inner) =>
      return t.replace k (.table .dotted (← addDotted? key value ks inner))
    | some (.table .implied inner) =>
      guard !ks.isEmpty
      return t.replace k (.table .implied (← addDotted? key value ks inner))
    | some (.tables earlier last) =>
      guard !ks.isEmpty
      return t.replace k (.tables earlier (← addDotted? key value ks last))
    | some _ => none

/-- Changes the table to which the keys of a header lead. Missing tables on the way are implied; of
several tables with one header the last is meant. -/
def at? (f : Table → Option Table) : List String → Table → Option Table
  | [], t => f t
  | k :: ks, t => do
    match t.get? k with
    | none => t.add? k (.table .implied (← at? f ks []))
    | some (.table .inline _) => none
    | some (.table origin inner) => return t.replace k (.table origin (← at? f ks inner))
    | some (.tables earlier last) => return t.replace k (.tables earlier (← at? f ks last))
    | some _ => none

def openTable? (key : String) (t : Table) : Option Table :=
  match t.get? key with
  | none => t.add? key (.table .header [])
  | some (.table .implied inner) => some (t.replace key (.table .header inner))
  | some _ => none

def openNext? (key : String) (t : Table) : Option Table :=
  match t.get? key with
  | none => t.add? key (.tables [] [])
  | some (.tables earlier last) => some (t.replace key (.tables (earlier ++ [last]) []))
  | some _ => none

end Table

end GlslToMetal.Toml
