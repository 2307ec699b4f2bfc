import GlslToMetal.Text.Delimiter

/-! Top-level items. A masked text is split into preprocessor lines, statements that end in `;`, and
blocks: a header, braces around a body, and a `;` behind them if one follows. Parentheses, brackets
and the braces of an initialiser are passed over whole. A delimiter that nothing closes makes the
rest of the text one item, and code after the last item is in none. -/

namespace GlslToMetal

/-- An item by its offsets. -/
inductive Item where
  /-- A preprocessor line, with the lines that continue it and without its newline. -/
  | directive (range : Range)
  /-- A statement, with the offset of its `;`. -/
  | statement (start semicolon : Nat)
  /-- A block, with the offsets of its braces and of its end. -/
  | block (start opened closed stop : Nat)
  /-- A delimiter in the item is never closed. -/
  | unterminated (start stop : Nat)
  deriving DecidableEq, Repr

namespace Item

def range : Item → Range
  | directive r => r
  | statement start semicolon => ⟨start, semicolon + 1⟩
  | block start _ _ stop => ⟨start, stop⟩
  | unterminated start stop => ⟨start, stop⟩

def body? : Item → Option Range
  | block _ opened closed _ => some ⟨opened + 1, closed⟩
  | _ => none

def header : Item → Range
  | block start opened _ _ => ⟨start, opened⟩
  | item => item.range

/-- How many bytes of a preprocessor line follow the byte `last`: up to a newline that no backslash
precedes. -/
def directiveTail (last : UInt8) : Text → Nat
  | [] => 0
  | b :: rest => if b == Text.newline && last != 92 then 0 else directiveTail b rest + 1

def semicolonTail (t : Text) : Nat :=
  match t.dropWhile Text.isBlank with
  | 59 :: _ => Text.leadingBlanks t + 1
  | _ => 0

/-- Where a scan stands: between items, or in the item that began at `start`, with an `=` in it or
not. -/
inductive Place where
  | between
  | inside (start : Nat) (assigned : Bool)
  deriving DecidableEq, Repr

def Place.pass : Place → UInt8 → Place
  | between, _ => between
  | inside start assigned, b => inside start (assigned || b == 61)

def Place.enter : Place → Nat → Nat × Bool
  | between, i => (i, false)
  | inside start assigned, _ => (start, assigned)

/-- The items of the bytes from offset `i` on. The next `skip` bytes belong to what the scan has
already read. -/
def scan (place : Place) (i skip : Nat) : Text → List Item
  | [] => []
  | b :: rest =>
    match skip with
    | skip + 1 => scan (place.pass b) (i + 1) skip rest
    | 0 =>
      if place == .between && Text.isBlank b then scan .between (i + 1) 0 rest
      else if place == .between && b == 35 then
        let n := directiveTail b rest
        directive ⟨i, i + 1 + n⟩ :: scan .between (i + 1) n rest
      else
        let (start, assigned) := place.enter i
        match Delimiter.ofOpener? b with
        | some d =>
          match d.toCloser 0 rest with
          | none => [unterminated start (i + 1 + rest.length)]
          | some n =>
            if d == .brace && !assigned then
              let tail := semicolonTail (rest.drop (n + 1))
              block start i (i + 1 + n) (i + 2 + n + tail) ::
                scan .between (i + 1) (n + 1 + tail) rest
            else scan (.inside start assigned) (i + 1) (n + 1) rest
        | none =>
          if b == 59 then statement start i :: scan .between (i + 1) 0 rest
          else scan (Place.pass (.inside start assigned) b) (i + 1) 0 rest

end Item

def Text.items (t : Text) : List Item := Item.scan .between 0 0 t

end GlslToMetal
