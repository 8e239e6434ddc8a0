/-
How numbers are written: plainly, in messages about tokens, and as the text
of a number value.
-/
import ScriptEngine.Number.Shortest

namespace ScriptEngine.Number

def zeros (n : Nat) : String := String.ofList (List.replicate n '0')

/-- Digits with a point after the first `point` of them, filled up with zeros;
at least `places` digits follow the point. -/
def positional (digits : List Char) (point : Int) (places : Nat) : String :=
  let n : Int := digits.length
  if point ≤ 0 then "0." ++ zeros (-point).toNat ++ String.ofList digits
  else if point < n then
    String.ofList (digits.take point.toNat) ++ "." ++ String.ofList (digits.drop point.toNat)
  else
    let whole := String.ofList digits ++ zeros (point - n).toNat
    if places = 0 then whole else whole ++ "." ++ zeros places

/-- One digit, the others after a point, and the power of ten. -/
def scientific (digits : List Char) (point : Int) : String :=
  let tail := digits.drop 1
  String.ofList (digits.take 1) ++ (if tail.isEmpty then "" else "." ++ String.ofList tail) ++
    "e" ++ toString (point - 1)

/-- The digits of a decimal and the position of its point among them. -/
def Decimal.digits (d : Decimal) : List Char × Int :=
  let cs := Nat.toDigits 10 d.coefficient
  (cs, cs.length + d.exponent)

def signed (negative : Bool) (s : String) : String := if negative then "-" ++ s else s

/-- Shortest digits without an exponent: `1`, `0.0000001`, `inf`. -/
def plain (x : Float) : String :=
  match decode x with
  | .nan => "NaN"
  | .infinite negative => signed negative "inf"
  | .finite negative m e =>
    if m = 0 then signed negative "0"
    else
      let (digits, point) := (shortest m e).digits
      signed negative (positional digits point 0)

/-- Shortest digits with a point or an exponent, as tokens are quoted: `1.0`,
`1e21`. The exponent is used from `1e16` on and below `1e-4`. -/
def pointed (x : Float) : String :=
  match decode x with
  | .nan => "NaN"
  | .infinite negative => signed negative "inf"
  | .finite negative m e =>
    if m = 0 then signed negative "0.0"
    else
      let (digits, point) := (shortest m e).digits
      signed negative
        (if 16 < point || point < -3 then scientific digits point else positional digits point 1)

/-- An integer cut off at the ends of the 64-bit signed range. -/
def saturate64 (n : Int) : Int := max (-9223372036854775808) (min 9223372036854775807 n)

/-- The text of a number value: integers below `10 ^ 21` without a point and
within the 64-bit range, all else in plain shortest digits. -/
def text (x : Float) : String :=
  match decode x with
  | .nan => "NaN"
  | .infinite negative => signed negative "Infinity"
  | .finite _ m _ =>
    if m = 0 then "0"
    else
      match integral? x with
      | some n => if n.natAbs < Nat.pow 10 21 then toString (saturate64 n) else plain x
      | none => plain x

end ScriptEngine.Number
