/-
The activation of a unit of code: where it stands, its operand stack and its
temporaries.
-/
import ScriptEngine.Heap.Callable

namespace ScriptEngine

/-- Where an exception goes that arises inside a region. -/
structure Handler where
  target : Nat
  /-- The height of the operand stack to go back to. -/
  height : Nat
  scope : Chain

/-- What becomes of the value that a frame returns. -/
inductive Purpose
  /-- A script, or code given to `eval`. -/
  | program
  | call
  /-- `new` made the object; a frame that returns no object yields it. -/
  | construct (made : ObjectRef)
  deriving Repr, DecidableEq

structure Frame where
  code : CodeUnit
  /-- The position of the next instruction. -/
  position : Nat
  /-- The operands, topmost first. -/
  stack : List Value
  scope : Chain
  receiver : Value
  temporaries : Array Value
  /-- The keys still to come of the loops over keys, by the temporary of the loop. -/
  keys : List (Nat × List String)
  /-- The open exception regions, innermost first. -/
  handlers : List Handler
  purpose : Purpose

namespace Frame

/-- The frame at the start of a unit. -/
def start (code : CodeUnit) (scope : Chain) (receiver : Value) (purpose : Purpose) : Frame :=
  { code
    position := 0
    stack := []
    scope
    receiver
    temporaries := Array.replicate code.temporaries .undefined
    keys := []
    handlers := []
    purpose }

def push (f : Frame) (v : Value) : Frame := { f with stack := v :: f.stack }

/-- Takes off the topmost operand. -/
def pop (f : Frame) : Option Value × Frame := (f.stack.head?, { f with stack := f.stack.tail })

/-- Takes off several operands and gives them in the order they were pushed. With fewer
than that on the stack, none is taken. -/
def popMany (f : Frame) (n : Nat) : Option (List Value) × Frame :=
  if n ≤ f.stack.length then (some (f.stack.take n).reverse, { f with stack := f.stack.drop n })
  else (none, f)

/-- A temporary that was never written is undefined. -/
def temporary (f : Frame) (i : Nat) : Value := f.temporaries.getD i .undefined

/-- The temporaries with at least `n` entries. -/
def extend (ts : Array Value) (n : Nat) : Array Value := ts ++ Array.replicate (n - ts.size) .undefined

def setTemporary (f : Frame) (i : Nat) (v : Value) : Frame :=
  { f with temporaries := (extend f.temporaries (i + 1)).setIfInBounds i v }

/-- The keys still to come of a loop. -/
def keysOf (f : Frame) (i : Nat) : List String := (f.keys.lookup i).getD []

def setKeys (f : Frame) (i : Nat) (keys : List String) : Frame :=
  { f with keys := (i, keys) :: f.keys.filter fun k => k.1 != i }

end Frame

end ScriptEngine
