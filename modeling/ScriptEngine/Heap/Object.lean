/-
Objects: properties in order of creation, and a class that says how an object
is shown. Arrays have a hidden `length` that grows with their indices.
-/
import Std.Data.TreeMap
import ScriptEngine.Heap.Value
import ScriptEngine.Number.Read

namespace ScriptEngine

inductive ObjectClass
  | object | array | error
  deriving Repr, DecidableEq

structure Property where
  value : Value
  /-- Loops over the keys visit the property. -/
  enumerable : Bool
  deletable : Bool
  deriving Inhabited

structure Object where
  objectClass : ObjectClass
  properties : Std.TreeMap String Property
  /-- The keys in order of creation. -/
  order : Array String
  /-- The function that `new` made the object with. -/
  maker : Option FunctionRef

/-- The array index a key stands for. -/
def arrayIndex? (key : String) : Option Nat := Number.plusUnsigned? 10 (Nat.pow 2 32) key.toList

namespace Object

def ofClass (c : ObjectClass) : Object := ⟨c, ∅, #[], none⟩

def empty : Object := ofClass .object

instance : Inhabited Object := ⟨empty⟩

def get? (o : Object) (key : String) : Option Value := o.properties[key]?.map Property.value

/-- A missing property reads as undefined. -/
def get (o : Object) (key : String) : Value := (o.get? key).getD .undefined

def has (o : Object) (key : String) : Bool := o.properties.contains key

/-- Adds a property behind the others. The key is not there yet. -/
def define (o : Object) (key : String) (p : Property) : Object :=
  { o with properties := o.properties.insert key p, order := o.order.push key }

/-- Overwrites a property in its place, or adds an ordinary one. -/
def put (o : Object) (key : String) (v : Value) : Object :=
  match o.properties[key]? with
  | some p => { o with properties := o.properties.insert key { p with value := v } }
  | none => o.define key ⟨v, true, true⟩

/-- Makes room in an array for an index. `length` is the number that the array's
length stands for. -/
def growLength (o : Object) (length : Float) (key : String) : Object :=
  match arrayIndex? key with
  | some i =>
    if Number.ofWord i ≥ length && o.has "length" then
      o.put "length" (.number (Number.ofWord i + 1.0))
    else o
  | none => o

/-- Writes a property. -/
def set (o : Object) (length : Float) (key : String) (v : Value) : Object :=
  if o.objectClass == .array then (o.growLength length key).put key v else o.put key v

/-- Deleting succeeds, unless the property is there and must stay. -/
def canDelete (o : Object) (key : String) : Bool := (o.properties[key]?.map Property.deletable).getD true

/-- The object without a property that may go. -/
def erase (o : Object) (key : String) : Object :=
  if o.has key && o.canDelete key then
    { o with properties := o.properties.erase key, order := o.order.filter (· != key) }
  else o

/-- The keys a loop visits. -/
def enumerableKeys (o : Object) : List String :=
  o.order.toList.filter fun key => (o.properties[key]?.map Property.enumerable).getD false

/-- Remembers the function an object was made with, unless one is known. -/
def madeWith (o : Object) (f : FunctionRef) : Object :=
  { o with maker := o.maker.orElse fun _ => some f }

/-- An array without elements. -/
def array (length : Nat) : Object :=
  (ofClass .array).define "length" ⟨.number (Number.ofWord length), false, false⟩

def error (name message : String) : Object :=
  ((ofClass .error).put "name" (.string name)).put "message" (.string message)

end Object

end ScriptEngine
