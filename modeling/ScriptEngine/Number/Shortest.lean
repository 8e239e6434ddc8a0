/-
The shortest decimal that reads back as a given double.

A double `m * 2 ^ e` is the nearest one to every real number between the
midpoints to its two neighbours. On the grid of decimals with `k` digits the
candidates are the two grid points around the value. The first `k` for which a
candidate lies between the midpoints wins, and of two candidates the nearer.
-/
import ScriptEngine.Number.Binary64

namespace ScriptEngine.Number

/-- The decimal `coefficient * 10 ^ exponent`. -/
structure Decimal where
  coefficient : Nat
  exponent : Int
  deriving Repr, DecidableEq

/-- A positive value `num / den` between the midpoints `low / den` and
`high / den`; the midpoints themselves belong to it when `closed`. -/
structure Interval where
  num : Nat
  den : Nat
  low : Nat
  high : Nat
  closed : Bool

/-- The reals that read as `m * 2 ^ e`. The gap below a power of two is half
the gap above it. -/
def Interval.ofDouble (m : Nat) (e : Int) : Interval :=
  let up := Nat.pow 2 (e - 2).toNat
  { num := 4 * m * up
    den := Nat.pow 2 (2 - e).toNat
    low := (4 * m - if m = hiddenBit then 1 else 2) * up
    high := (4 * m + 2) * up
    closed := m % 2 = 0 }

/-- `n / d` of the grid lies above the lower midpoint. -/
def Interval.aboveLow (i : Interval) (n d : Nat) : Bool :=
  if i.closed then i.low * d ≤ n * i.den else i.low * d < n * i.den

/-- `n / d` of the grid lies below the upper midpoint. -/
def Interval.belowHigh (i : Interval) (n d : Nat) : Bool :=
  if i.closed then n * i.den ≤ i.high * d else n * i.den < i.high * d

/-- Zeros between the point and the first digit of `num / den < 1`. -/
def leadingZeros : Nat → Nat → Nat → Nat
  | 0, _, _ => 0
  | fuel + 1, num, den => if den ≤ num * 10 then 0 else leadingZeros fuel (num * 10) den + 1

/-- The `p` with `10 ^ (p - 1) ≤ num / den < 10 ^ p`. -/
def pointPosition (num den : Nat) : Int :=
  if den ≤ num then (Nat.toDigits 10 (num / den)).length
  else -(leadingZeros 400 num den : Int)

/-- The candidate with `k` digits, if one lies in the interval. A candidate
halfway between two grid points goes up. -/
def Interval.candidate (i : Interval) (point : Int) (k : Nat) : Option Decimal :=
  let exponent := point - k
  -- the grid point `n` is the real number `n * grow / shrink`
  let grow := Nat.pow 10 exponent.toNat
  let shrink := Nat.pow 10 (-exponent).toNat
  let floor := i.num * shrink / (i.den * grow)
  let down := i.aboveLow (floor * grow) shrink
  let up := i.belowHigh ((floor + 1) * grow) shrink
  let upperHalf := i.den * (2 * floor + 1) * grow ≤ 2 * i.num * shrink
  if up && (!down || upperHalf) then some ⟨floor + 1, exponent⟩
  else if down then some ⟨floor, exponent⟩
  else none

/-- A decimal without trailing zeros in its coefficient. -/
def Decimal.trim : Nat → Decimal → Decimal
  | 0, d => d
  | fuel + 1, d =>
    if d.coefficient ≠ 0 ∧ d.coefficient % 10 = 0 then
      Decimal.trim fuel ⟨d.coefficient / 10, d.exponent + 1⟩
    else d

/-- The shortest decimal that reads as the positive double `m * 2 ^ e`. -/
def shortest (m : Nat) (e : Int) : Decimal :=
  let i := Interval.ofDouble m e
  let point := pointPosition i.num i.den
  match (List.range 17).findSome? fun k => i.candidate point (k + 1) with
  | some d => d.trim 18
  | none => ⟨0, 0⟩

end ScriptEngine.Number
