/-
The store: everything with an identity that a program has made. Objects,
functions and environment records are only ever added and are found by number.
-/
import ScriptEngine.Heap.Callable
import ScriptEngine.Heap.Object

namespace ScriptEngine

/-- A variable of a record that grows. -/
structure Binding where
  value : Value
  deletable : Bool
  deriving Inhabited

/-- The variables of one scope. -/
inductive Record
  /-- Fixed slots, one for each name. -/
  | declarative (names : Array String) (slots : Array Value)
  /-- Variables by name, which come and go. -/
  | dynamic (bindings : Std.TreeMap String Binding)
  /-- The properties of an object. -/
  | object (ref : ObjectRef)

namespace Record

instance : Inhabited Record := ⟨.dynamic ∅⟩

/-- Fixed slots that all hold undefined. -/
def slots (names : Array String) : Record :=
  .declarative names (Array.replicate names.size .undefined)

def isDynamic : Record → Bool
  | .dynamic _ => true
  | _ => false

end Record

structure Store where
  objects : Array Object
  callables : Array Callable
  records : Array Record

namespace Store

def empty : Store := ⟨#[], #[], #[]⟩

/-! ## Objects -/

def addObject (s : Store) (o : Object) : ObjectRef × Store :=
  (⟨s.objects.size⟩, { s with objects := s.objects.push o })

def object (s : Store) (r : ObjectRef) : Object := s.objects.getD r.index default

def modifyObject (s : Store) (r : ObjectRef) (f : Object → Object) : Store :=
  { s with objects := s.objects.modify r.index f }

def deleteProperty (s : Store) (r : ObjectRef) (key : String) : Bool × Store :=
  let deleted := (s.object r).canDelete key
  (deleted, s.modifyObject r fun o => o.erase key)

/-- The object was made by applying `new` to the function. -/
def madeBy (s : Store) (r : ObjectRef) (f : FunctionRef) : Bool := (s.object r).maker == some f

/-! ## Functions -/

def addCallable (s : Store) (c : Callable) : FunctionRef × Store :=
  (⟨s.callables.size⟩, { s with callables := s.callables.push c })

def callable (s : Store) (f : FunctionRef) : Callable := s.callables.getD f.index default

/-! ## Records -/

def addRecord (s : Store) (r : Record) : RecordRef × Store :=
  (⟨s.records.size⟩, { s with records := s.records.push r })

def record (s : Store) (r : RecordRef) : Record := s.records.getD r.index default

def modifyRecord (s : Store) (r : RecordRef) (f : Record → Record) : Store :=
  { s with records := s.records.modify r.index f }

end Store

end ScriptEngine
