/-
Numerals: decimal literals with an optional fraction and exponent, and
unsigned integers in a base.
-/
import ScriptEngine.Text.WhiteSpace

namespace ScriptEngine.Number

/-- The value of a digit in bases up to sixteen. -/
def digitValue? (base : Nat) (c : Char) : Option Nat :=
  let v :=
    if '0' ≤ c ∧ c ≤ '9' then c.toNat - '0'.toNat
    else if 'a' ≤ c ∧ c ≤ 'f' then c.toNat - 'a'.toNat + 10
    else if 'A' ≤ c ∧ c ≤ 'F' then c.toNat - 'A'.toNat + 10
    else 16
  if v < base then some v else none

def isDigit (c : Char) : Bool := '0' ≤ c && c ≤ '9'

def isHexDigit (c : Char) : Bool := (digitValue? 16 c).isSome

/-- The number a row of digits denotes. -/
def digitsValue (base : Nat) (cs : List Char) : Nat :=
  cs.foldl (fun n c => n * base + (digitValue? base c).getD 0) 0

/-- The number a row of digits denotes when it is below `limit`. Otherwise the number that those
leading digits denote with which it first reaches `limit`. -/
def digitsValueUpTo (limit base : Nat) (cs : List Char) : Nat :=
  cs.foldl (fun n c => if n < limit then n * base + (digitValue? base c).getD 0 else n) 0

/-- One or more digits with a value below `limit`. -/
def unsigned? (base limit : Nat) (cs : List Char) : Option Nat :=
  if cs.isEmpty || cs.any (fun c => (digitValue? base c).isNone) then none
  else
    let n := digitsValueUpTo limit base cs
    if n < limit then some n else none

/-- An unsigned integer that may have a plus sign. -/
def plusUnsigned? (base limit : Nat) : List Char → Option Nat
  | '+' :: cs => unsigned? base limit cs
  | cs => unsigned? base limit cs

/-- The double nearest to `coefficient * 10 ^ exponent`. Powers beyond the range of
doubles are decided by the number of digits alone. -/
def ofDecimal (coefficient : Nat) (exponent : Int) : Float :=
  if coefficient = 0 then 0.0
  else
    let magnitude := (coefficient.log2 : Int) * 30103 / 100000 + exponent
    if 400 < magnitude then 1.0 / 0.0
    else if magnitude < -400 then 0.0
    else Float.ofScientific coefficient (exponent < 0) exponent.natAbs

/-- How many digits of a coefficient count in full. A number halfway between two doubles has
fewer, so of the digits behind these it only matters whether one is not zero. -/
def fullDigits : Nat := 800

/-- The double nearest to a row of digits times `10 ^ exponent`. -/
def ofDigits (digits : List Char) (exponent : Int) : Float :=
  let digits := digits.dropWhile (· == '0')
  let coefficient := digitsValue 10 (digits.take fullDigits)
  let rest := digits.drop fullDigits
  if rest.isEmpty then ofDecimal coefficient exponent
  else
    let last := if rest.all (· == '0') then 0 else 1
    ofDecimal (coefficient * 10 + last) (exponent + rest.length - 1)

/-- Where an exponent is large enough: its digits behind those that take it there are ignored. -/
def exponentLimit : Nat := 65536

/-- The digits of an exponent. -/
def exponentDigits? (ds : List Char) : Option Nat :=
  if ds.isEmpty || !ds.all isDigit then none else some (digitsValueUpTo exponentLimit 10 ds)

/-- The exponent part: nothing, or a mark, an optional sign and digits. -/
def exponentPart? : List Char → Option Int
  | [] => some 0
  | mark :: cs =>
    if mark != 'e' && mark != 'E' then none
    else
      match cs with
      | '-' :: ds => (exponentDigits? ds).map fun n => -(n : Int)
      | '+' :: ds => (exponentDigits? ds).map fun n => (n : Int)
      | ds => (exponentDigits? ds).map fun n => (n : Int)

/-- A decimal literal: digits with at most one point and at least one digit,
then an optional exponent. -/
def decimal? (cs : List Char) : Option Float :=
  let whole := cs.takeWhile isDigit
  let rest := cs.dropWhile isDigit
  let (fraction, tail) :=
    match rest with
    | '.' :: ds => (ds.takeWhile isDigit, ds.dropWhile isDigit)
    | _ => ([], rest)
  if whole.isEmpty && fraction.isEmpty then none
  else (exponentPart? tail).map fun e => ofDigits (whole ++ fraction) (e - fraction.length)

/-- A decimal literal with an optional sign. -/
def signedDecimal? : List Char → Option Float
  | '-' :: cs => (decimal? cs).map fun x => -x
  | '+' :: cs => decimal? cs
  | cs => decimal? cs

/-- The double of a 64-bit unsigned integer. -/
def ofWord (n : Nat) : Float := (UInt64.ofNat n).toFloat

def nan : Float := 0.0 / 0.0

def infinity : Float := 1.0 / 0.0

/-- The number a text denotes: blank text is zero, then hexadecimal integers, the signed
infinities and signed decimal literals; everything else is not a number. -/
def ofText (s : String) : Float :=
  match Text.trim s.toList with
  | [] => 0.0
  | '0' :: 'x' :: hex | '0' :: 'X' :: hex =>
    match plusUnsigned? 16 (Nat.pow 2 64) hex with
    | some n => ofWord n
    | none => nan
  | cs =>
    if cs = "Infinity".toList ∨ cs = "+Infinity".toList then infinity
    else if cs = "-Infinity".toList then -infinity
    else (signedDecimal? cs).getD nan

end ScriptEngine.Number
