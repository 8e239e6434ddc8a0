/-
Units of code: a script, the code of an `eval`, or a function body.
-/
import Std.Data.TreeMap
import ScriptEngine.Code.Instruction
import ScriptEngine.Heap.Value

namespace ScriptEngine

/-- What a unit was made from; it decides where its declarations go. -/
inductive UnitKind
  | global | eval | function
  deriving Repr, DecidableEq, Inhabited

/-- Whether variables live in numbered slots or are looked up by name. -/
inductive Storage
  | static | dynamic
  deriving Repr, DecidableEq, Inhabited

structure CodeUnit where
  name : Option String
  kind : UnitKind
  params : List String
  storage : Storage
  /-- The declared variables, parameters first. -/
  bindings : Array String
  instructions : Array Instruction
  constants : Array Value
  /-- The units of the functions written in this one. -/
  functions : Array CodeUnit
  /-- The number of temporaries of a frame. -/
  temporaries : Nat
  /-- Assigning to a name that is bound nowhere is an error. -/
  strict : Bool
  /-- A named function expression sees its own name in a scope around it. -/
  bindsOwnName : Bool
  /-- The name that each instruction was written for whose variable has a slot, by its position. -/
  slotNames : Std.TreeMap Nat String := ∅
  deriving Inhabited

namespace CodeUnit

def arity (u : CodeUnit) : Nat := u.params.length

end CodeUnit

end ScriptEngine
