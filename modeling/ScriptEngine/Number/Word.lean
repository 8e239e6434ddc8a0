/-
Numbers as 32-bit words, for the bitwise operators.
-/
import ScriptEngine.Number.Binary64

namespace ScriptEngine.Number

/-- The truncated number modulo `2 ^ 32`; zero for a number that is not finite. -/
def toUInt32 (x : Float) : UInt32 :=
  match truncate? x with
  | some n => UInt32.ofNat (n % 4294967296).toNat
  | none => 0

/-- The same word read as a signed integer. -/
def toInt32 (x : Float) : Int32 := (toUInt32 x).toInt32

def ofInt32 (n : Int32) : Float := Float.ofInt n.toInt

def ofUInt32 (n : UInt32) : Float := Float.ofNat n.toNat

/-- A shift distance: the low five bits of a word. -/
def distance (x : Float) : UInt32 := toUInt32 x &&& 31

def bitAnd (x y : Float) : Float := ofInt32 (toInt32 x &&& toInt32 y)

def bitOr (x y : Float) : Float := ofInt32 (toInt32 x ||| toInt32 y)

def bitXor (x y : Float) : Float := ofInt32 (toInt32 x ^^^ toInt32 y)

def bitNot (x : Float) : Float := ofInt32 (~~~ toInt32 x)

def shiftLeft (x y : Float) : Float := ofInt32 (toInt32 x <<< (distance y).toInt32)

/-- Keeps the sign. -/
def shiftRight (x y : Float) : Float := ofInt32 (toInt32 x >>> (distance y).toInt32)

def shiftRightUnsigned (x y : Float) : Float := ofUInt32 (toUInt32 x >>> distance y)

end ScriptEngine.Number
