/-
Equality and order of values with conversions.
-/
import ScriptEngine.Heap.Convert

namespace ScriptEngine

namespace Value

/-- A boolean as a number. -/
def unboolean : Value → Value
  | .boolean b => .number (if b then 1.0 else 0.0)
  | v => v

/-- Equality where a text and a number compare as numbers and the two empty values
are equal. -/
def flatEquals : Value → Value → Bool
  | .undefined, .null | .null, .undefined => true
  | .number n, .string t => n == Number.ofText t
  | .string t, .number n => Number.ofText t == n
  | a, b => a.strictEquals b

end Value

namespace Store

/-- Objects take part in comparisons through their texts. -/
def primitive (s : Store) (v : Value) : Value := if v.isObject then .string (s.text v) else v

/-- Equality with conversions: booleans count as numbers, and an object equals what its text
equals unless the other is an object too. -/
def looseEquals (s : Store) (a b : Value) : Bool :=
  let a := a.unboolean
  let b := b.unboolean
  if a.isObject && b.isObject then a.strictEquals b
  else (s.primitive a).flatEquals (s.primitive b)

/-- The order of two numbers; none with NaN. -/
def compareNumbers (x y : Float) : Option Ordering :=
  if x < y then some .lt
  else if x == y then some .eq
  else if x > y then some .gt
  else none

/-- The order of two values: texts by their characters, all else as numbers. -/
def compare (s : Store) (a b : Value) : Option Ordering :=
  match s.primitive a, s.primitive b with
  | .string x, .string y => some (compareOfLessAndEq x y)
  | a, b => compareNumbers (s.toNumber a) (s.toNumber b)

end Store

end ScriptEngine
