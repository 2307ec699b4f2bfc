/-! The numbers, dates and times of TOML as words: which words are written as one, and the value of
an integer. -/

namespace GlslToMetal.Toml

def isDigits (digit : Char → Bool) : List Char → Bool
  | [] => false
  | [c] => digit c
  | c :: '_' :: rest => digit c && isDigits digit rest
  | c :: rest => digit c && isDigits digit rest

def isDecimal (cs : List Char) : Bool :=
  isDigits Char.isDigit cs && (cs.head? != some '0' || cs.length == 1)

def dropSign : List Char → List Char
  | '+' :: rest => rest
  | '-' :: rest => rest
  | cs => cs

def digitValue (c : Char) : Nat :=
  if c.isDigit then c.toNat - 48 else c.toLower.toNat - 87

def digitsValue (base : Nat) (cs : List Char) : Nat :=
  (cs.filter (· != '_')).foldl (fun n c => n * base + digitValue c) 0

def isHexDigit (c : Char) : Bool :=
  c.isDigit || ('a' ≤ c && c ≤ 'f') || ('A' ≤ c && c ≤ 'F')

def integerValue? (cs : List Char) : Option Int :=
  match cs with
  | '0' :: 'x' :: rest => if isDigits isHexDigit rest then some (digitsValue 16 rest) else none
  | '0' :: 'o' :: rest =>
    if isDigits (fun c => '0' ≤ c && c ≤ '7') rest then some (digitsValue 8 rest) else none
  | '0' :: 'b' :: rest =>
    if isDigits (fun c => c == '0' || c == '1') rest then some (digitsValue 2 rest) else none
  | cs =>
    if isDecimal (dropSign cs) then
      let n : Int := digitsValue 10 (dropSign cs)
      some (if cs.head? == some '-' then -n else n)
    else none

def integer? (cs : List Char) : Option Int :=
  (integerValue? cs).filter fun n => -0x8000000000000000 ≤ n && n < 0x8000000000000000

def isExponent : List Char → Bool
  | c :: rest => (c == 'e' || c == 'E') && isDigits Char.isDigit (dropSign rest)
  | [] => false

def isFraction : List Char → Bool
  | '.' :: rest =>
    let digits := rest.takeWhile fun c => c.isDigit || c == '_'
    let tail := rest.dropWhile fun c => c.isDigit || c == '_'
    isDigits Char.isDigit digits && (tail.isEmpty || isExponent tail)
  | cs => isExponent cs

def isFloat (cs : List Char) : Bool :=
  let cs := dropSign cs
  let whole := cs.takeWhile fun c => c.isDigit || c == '_'
  cs == "inf".toList || cs == "nan".toList ||
    (isDecimal whole && isFraction (cs.drop whole.length))

def power (base : Nat) : Nat → Nat
  | 0 => 1
  | n + 1 => base * power base n

def exponentValue (cs : List Char) : Int :=
  let n : Int := digitsValue 10 (dropSign cs)
  if cs.head? == some '-' then -n else n

/-- A positive float that 64 bits round to infinity: the least such number lies half a step beyond
the largest that they hold. -/
def isTooLarge (cs : List Char) : Bool :=
  let isMark (c : Char) : Bool := c == 'e' || c == 'E'
  let significand := (dropSign cs).takeWhile (!isMark ·)
  let fraction := ((significand.dropWhile (· != '.')).drop 1).filter (· != '_')
  let digits := significand.filter Char.isDigit
  let mantissa := digitsValue 10 digits
  let exponent := exponentValue ((cs.dropWhile (!isMark ·)).drop 1) - fraction.length
  let size : Int := (digits.dropWhile (· == '0')).length + exponent
  let bound := power 2 1024 - power 2 970
  cs.head? != some '-' && mantissa != 0 && 308 < size &&
    (310 < size || bound * power 10 (-exponent).toNat ≤ mantissa * power 10 exponent.toNat)

def fixed? (n : Nat) (cs : List Char) : Option (Nat × List Char) :=
  let digits := cs.take n
  if digits.length == n && digits.all Char.isDigit then
    some (digitsValue 10 digits, cs.drop n)
  else none

def expect? (c : Char) : List Char → Option (List Char)
  | d :: rest => if c == d then some rest else none
  | [] => none

def isLeapYear (y : Nat) : Bool := y % 4 == 0 && (y % 100 != 0 || y % 400 == 0)

def daysIn (year month : Nat) : Nat :=
  if month == 2 then if isLeapYear year then 29 else 28
  else if month == 4 || month == 6 || month == 9 || month == 11 then 30
  else 31

def pastDate? (cs : List Char) : Option (List Char) := do
  let (year, cs) ← fixed? 4 cs
  let (month, cs) ← fixed? 2 (← expect? '-' cs)
  let (day, cs) ← fixed? 2 (← expect? '-' cs)
  guard (1 ≤ month && month ≤ 12 && 1 ≤ day && day ≤ daysIn year month)
  return cs

def pastTime? (cs : List Char) : Option (List Char) := do
  let (hour, cs) ← fixed? 2 cs
  let (minute, cs) ← fixed? 2 (← expect? ':' cs)
  let (second, cs) ← fixed? 2 (← expect? ':' cs)
  guard (hour ≤ 23 && minute ≤ 59 && second ≤ 60)
  match cs with
  | '.' :: rest =>
    guard (rest.head?.any Char.isDigit)
    return rest.dropWhile Char.isDigit
  | cs => return cs

/-- A time offset, or nothing. -/
def isOffset (cs : List Char) : Bool :=
  match cs with
  | [] => true
  | ['Z'] => true
  | ['z'] => true
  | sign :: rest =>
    (sign == '+' || sign == '-') && (do
      let (hour, cs) ← fixed? 2 rest
      let (minute, cs) ← fixed? 2 (← expect? ':' cs)
      guard (hour ≤ 23 && minute ≤ 59 && cs.isEmpty)).isSome

def isTimeWithOffset (cs : List Char) : Bool := (pastTime? cs).any isOffset

def isDateTime (cs : List Char) : Bool :=
  (pastTime? cs).any List.isEmpty ||
    (pastDate? cs).any fun rest =>
      match rest with
      | [] => true
      | c :: time => (c == 'T' || c == 't') && isTimeWithOffset time

def isDate (cs : List Char) : Bool := (pastDate? cs).any List.isEmpty

end GlslToMetal.Toml
