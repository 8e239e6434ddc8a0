/-
Doubles taken apart: sign, whole significand and power of two. Everything
that needs the exact value of a number (its integer part, its remainder, its
shortest digits) goes through `decode`.
-/

namespace ScriptEngine.Number

/-- What a double stands for. A finite one is `± significand * 2 ^ exponent`. -/
inductive Decoded
  | nan
  | infinite (negative : Bool)
  | finite (negative : Bool) (significand : Nat) (exponent : Int)
  deriving Repr, DecidableEq

/-- The least exponent of a finite double. -/
def minExponent : Int := -1074

/-- The significand of a power of two in the normal range. -/
def hiddenBit : Nat := Nat.pow 2 52

def decode (x : Float) : Decoded :=
  let bits := x.toBits.toNat
  let negative := decide (Nat.pow 2 63 ≤ bits)
  let biased := bits / hiddenBit % 2048
  let fraction := bits % hiddenBit
  if biased = 2047 then
    if fraction = 0 then .infinite negative else .nan
  else if biased = 0 then .finite negative fraction minExponent
  else .finite negative (hiddenBit + fraction) (biased - 1075)

/-- The double `± significand * 2 ^ exponent`, exact when the significand has
at most 53 bits and the exponent is at least `minExponent`. -/
def encode (negative : Bool) (significand : Nat) (exponent : Int) : Float :=
  let room := (exponent - minExponent).toNat
  let shift := min (52 - significand.log2) room
  let m := significand * Nat.pow 2 shift
  let magnitude :=
    if m < hiddenBit then m else ((exponent - shift + 1075).toNat) * hiddenBit + (m - hiddenBit)
  Float.ofBits (UInt64.ofNat (if negative then Nat.pow 2 63 + magnitude else magnitude))

/-- The quotient and remainder of a finite magnitude by one. -/
def wholeAndPart (significand : Nat) (exponent : Int) : Nat × Nat :=
  if 0 ≤ exponent then (significand * Nat.pow 2 exponent.toNat, 0)
  else (significand / Nat.pow 2 (-exponent).toNat, significand % Nat.pow 2 (-exponent).toNat)

/-- The integer a finite double truncates to. -/
def truncate? (x : Float) : Option Int :=
  match decode x with
  | .finite negative m e =>
    let whole := (wholeAndPart m e).1
    some (if negative then -(whole : Int) else whole)
  | _ => none

/-- The integer a finite double is equal to, if there is one. -/
def integral? (x : Float) : Option Int :=
  match decode x with
  | .finite negative m e =>
    match wholeAndPart m e with
    | (whole, 0) => some (if negative then -(whole : Int) else whole)
    | _ => none
  | _ => none

/-- The remainder of truncating division, with the sign of the dividend. -/
def remainder (x y : Float) : Float :=
  match decode x, decode y with
  | .finite negative m e, .finite _ n f =>
    if n = 0 then 0.0 / 0.0
    else
      let unit := min e f
      encode negative ((m * Nat.pow 2 (e - unit).toNat) % (n * Nat.pow 2 (f - unit).toNat)) unit
  | .finite .., .infinite _ => x
  | _, _ => 0.0 / 0.0

end ScriptEngine.Number
