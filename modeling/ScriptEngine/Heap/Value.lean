/-
Values of a running program. Objects, functions and environment records live
in a store and are known to values by their number.
-/

namespace ScriptEngine

/-- The number of an object in the store. -/
structure ObjectRef where
  index : Nat
  deriving Repr, DecidableEq

/-- The number of a callable in the store. -/
structure FunctionRef where
  index : Nat
  deriving Repr, DecidableEq

/-- The number of an environment record in the store. -/
structure RecordRef where
  index : Nat
  deriving Repr, DecidableEq

inductive Value
  | undefined
  | null
  | boolean (b : Bool)
  | number (n : Float)
  | string (s : String)
  | object (ref : ObjectRef)
  | function (ref : FunctionRef)
  deriving Inhabited

namespace Value

/-- Strict equality: no conversions, objects and functions by identity. -/
def strictEquals : Value → Value → Bool
  | .undefined, .undefined => true
  | .null, .null => true
  | .boolean a, .boolean b => a == b
  | .number a, .number b => a == b
  | .string a, .string b => a == b
  | .object a, .object b => a == b
  | .function a, .function b => a == b
  | _, _ => false

def isUndefined : Value → Bool
  | .undefined => true
  | _ => false

def isNullish : Value → Bool
  | .undefined | .null => true
  | _ => false

def isFunction : Value → Bool
  | .function _ => true
  | _ => false

/-- Objects and functions. -/
def isObject : Value → Bool
  | .object _ | .function _ => true
  | _ => false

def toBoolean : Value → Bool
  | .undefined | .null => false
  | .boolean b => b
  | .number n => !n.isNaN && n != 0.0
  | .string s => !s.isEmpty
  | .object _ | .function _ => true

def typeOf : Value → String
  | .undefined => "undefined"
  | .null | .object _ => "object"
  | .boolean _ => "boolean"
  | .number _ => "number"
  | .string _ => "string"
  | .function _ => "function"

end Value

end ScriptEngine
