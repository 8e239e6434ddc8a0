/-
What the operators of the language do to values, given the store, and what
reading and writing variables and properties does to a realm. Names are always
looked up along the chain of records.
-/
import ScriptEngine.Machine.Exec

namespace ScriptEngine.Meaning

open Realm

/-- Reads something off the store, unless that is a fault. -/
def inspect (g : Store → Except Fault α) : Action α := fun r =>
  match g r.store with
  | .ok a => .ok a r
  | .error f => .error (.fault f) r

/-! ## Operators -/

def literal (n : Float) : Value := .number (Float.ofBits n.toBits)

def numeric (f : Float → Float → Float) (s : Store) (a b : Value) : Except Fault Value :=
  .ok (.number (f (s.toNumber a) (s.toNumber b)))

def relational (test : Ordering → Bool) (s : Store) (a b : Value) : Except Fault Value :=
  .ok (.boolean (((s.compare a b).map test).getD false))

def hasKey (s : Store) (key base : Value) : Except Fault Value :=
  match base with
  | .object r => .ok (.boolean ((s.object r).has (s.text key)))
  | _ => .error (.type (.inOperator (s.text key) (s.text base)))

def isInstance (s : Store) (v maker : Value) : Except Fault Value :=
  match maker, v with
  | .function f, .object r => .ok (.boolean (s.madeBy r f))
  | .function _, _ => .ok (.boolean false)
  | _, _ => .error (.type .instanceOf)

def binary (op : BinaryOp) (s : Store) (a b : Value) : Except Fault Value :=
  match op with
  | .add => .ok (Exec.add s a b)
  | .subtract => numeric (· - ·) s a b
  | .multiply => numeric (· * ·) s a b
  | .divide => numeric (· / ·) s a b
  | .modulo => numeric Number.remainder s a b
  | .equal => .ok (.boolean (s.looseEquals a b))
  | .notEqual => .ok (.boolean !(s.looseEquals a b))
  | .strictEqual => .ok (.boolean (a.strictEquals b))
  | .strictNotEqual => .ok (.boolean !(a.strictEquals b))
  | .lessThan => relational (· == .lt) s a b
  | .lessThanEqual => relational (· != .gt) s a b
  | .greaterThan => relational (· == .gt) s a b
  | .greaterThanEqual => relational (· != .lt) s a b
  | .bitwiseAnd => numeric Number.bitAnd s a b
  | .bitwiseOr => numeric Number.bitOr s a b
  | .bitwiseXor => numeric Number.bitXor s a b
  | .leftShift => numeric Number.shiftLeft s a b
  | .rightShift => numeric Number.shiftRight s a b
  | .unsignedRightShift => numeric Number.shiftRightUnsigned s a b
  | .isIn => hasKey s a b
  | .instanceOf => isInstance s a b

def negate (s : Store) (v : Value) : Value := .number (-(s.toNumber v))

def asNumber (s : Store) (v : Value) : Value := .number (s.toNumber v)

def complement (s : Store) (v : Value) : Value := .number (Number.bitNot (s.toNumber v))

/-! ## Variables -/

/-- The value of a variable, and the receiver of a call through its name. -/
def readVariable (chain : Chain) (name : String) (s : Store) : Except Fault (Value × Value) :=
  match s.lookup chain name with
  | some found => .ok found
  | none => .error (.unbound name)

/-- The value of a variable; undefined when the name is bound nowhere. -/
def peekVariable (chain : Chain) (name : String) (s : Store) : Value :=
  ((s.lookup chain name).map Prod.fst).getD .undefined

/-- Assigns to the nearest binding of a name. Without one, the code is at fault when it is
strict, and otherwise the variable becomes a global one. -/
def writeVariable (chain : Chain) (strict : Bool) (name : String) (v : Value) : Action Unit := do
  if ← withStore fun s => s.assign chain name v then return
  else if strict then raise (.unbound name)
  else modifyStore fun s => s.assignGlobal chain name v

def deleteVariable (chain : Chain) (name : String) : Action Bool :=
  withStore fun s => s.deleteBinding name chain

/-! ## Properties -/

def readProperty (base key : Value) (s : Store) : Except Fault Value :=
  if base.isNullish then .error (.type (.readProperty (s.text key) (s.text base)))
  else .ok (s.property base (s.text key))

def writeProperty (base key v : Value) : Action Unit := do
  let key ← readStore fun s => s.text key
  match base with
  | .object r => modifyStore fun s => s.setProperty r key v
  | .undefined | .null => raise (.type (.setProperty key (← readStore fun s => s.text base)))
  | _ => return

def deleteProperty (base key : Value) : Action Bool := do
  let key ← readStore fun s => s.text key
  match base with
  | .object r => withStore fun s => s.deleteProperty r key
  | .undefined | .null => raise (.type (.deleteProperty key (← readStore fun s => s.text base)))
  | _ => return true

/-- Gives the object that a literal makes one of its properties. -/
def defineProperty (made : ObjectRef) (key : String) (v : Value) : Action Unit :=
  modifyStore fun s => s.setProperty made key v

def makeObject (o : Object) : Action ObjectRef := withStore fun s => s.addObject o

end ScriptEngine.Meaning
