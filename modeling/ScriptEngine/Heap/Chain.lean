/-
Variables along a chain of environment records. Every operation by name acts
on the nearest record that binds the name.
-/
import ScriptEngine.Heap.Convert

namespace ScriptEngine

/-- Where a record keeps a name that it binds. -/
inductive Place
  | slot (index : Nat)
  | binding
  | property (object : ObjectRef)
  deriving Repr, DecidableEq

namespace Store

/-! ## One record -/

/-- Where a record keeps a name, if it binds it. -/
def place? (s : Store) (r : RecordRef) (name : String) : Option Place :=
  match s.record r with
  | .declarative names _ => (names.findIdx? (· == name)).map Place.slot
  | .dynamic bindings => if bindings.contains name then some .binding else none
  | .object o => if (s.object o).has name then some (.property o) else none

def binds (s : Store) (r : RecordRef) (name : String) : Bool := (s.place? r name).isSome

def slot? (s : Store) (r : RecordRef) (i : Nat) : Option Value :=
  match s.record r with
  | .declarative _ slots => slots[i]?
  | _ => none

/-- Writes a slot; false when there is none. -/
def setSlot (s : Store) (r : RecordRef) (i : Nat) (v : Value) : Bool × Store :=
  let there := (s.slot? r i).isSome
  (there, s.modifyRecord r fun
    | .declarative names slots => .declarative names (slots.setIfInBounds i v)
    | other => other)

/-- The value that a record itself binds a name to. -/
def valueOf? (s : Store) (r : RecordRef) (name : String) : Option Value :=
  match s.place? r name with
  | some (.slot i) => s.slot? r i
  | some .binding =>
    match s.record r with
    | .dynamic bindings => bindings[name]?.map Binding.value
    | _ => none
  | some (.property o) => some ((s.object o).get name)
  | none => none

/-- Writes a variable of a record; false when the record does not bind it. -/
def setVariable (s : Store) (r : RecordRef) (name : String) (v : Value) : Bool × Store :=
  match s.place? r name with
  | some (.slot i) => s.setSlot r i v
  | some .binding =>
    (true, s.modifyRecord r fun
      | .dynamic bindings => .dynamic (bindings.modify name fun b => { b with value := v })
      | other => other)
  | some (.property o) => (true, s.setProperty o name v)
  | none => (false, s)

/-- Adds a variable to a record that grows and keeps one that is there. Other records
refuse. -/
def declare (s : Store) (r : RecordRef) (name : String) (deletable : Bool) : Bool × Store :=
  let grows := (s.record r).isDynamic
  (grows, s.modifyRecord r fun
    | .dynamic bindings => .dynamic (bindings.insertIfNew name ⟨.undefined, deletable⟩)
    | other => other)

def declareAll (s : Store) (r : RecordRef) (names : Array String) (deletable : Bool) : Store :=
  names.foldl (fun s name => (s.declare r name deletable).2) s

/-- The record lets go of a name when it is deleted. -/
def isDeletable (s : Store) (r : RecordRef) (name : String) : Bool :=
  match s.record r with
  | .dynamic bindings => (bindings[name]?.map Binding.deletable).getD false
  | _ => false

/-- Deletes a variable of a record; none when the record does not bind it. -/
def deleteVariable (s : Store) (r : RecordRef) (name : String) : Option Bool × Store :=
  match s.place? r name with
  | some (.slot _) => (some false, s)
  | some .binding =>
    if s.isDeletable r name then
      (some true, s.modifyRecord r fun
        | .dynamic bindings => .dynamic (bindings.erase name)
        | other => other)
    else (some false, s)
  | some (.property o) =>
    let (deleted, s) := s.deleteProperty o name
    (some deleted, s)
  | none => (none, s)

/-! ## The chain -/

/-- The part of the chain that starts with the nearest record binding a name. -/
def find (s : Store) (name : String) : Chain → Option Chain
  | [] => none
  | r :: outer => if s.binds r name then some (r :: outer) else s.find name outer

/-- The object that calls through a record's names apply to. -/
def receiver (s : Store) (r : RecordRef) : Value :=
  match s.record r with
  | .object o => .object o
  | _ => .undefined

/-- The value of a name, and the receiver of a call through it. -/
def lookup (s : Store) (chain : Chain) (name : String) : Option (Value × Value) :=
  match s.find name chain with
  | some (r :: _) => (s.valueOf? r name).map fun v => (v, s.receiver r)
  | _ => none

/-- Assigns to the nearest binding; false when there is none. -/
def assign (s : Store) (chain : Chain) (name : String) (v : Value) : Bool × Store :=
  match s.find name chain with
  | some (r :: _) => s.setVariable r name v
  | _ => (false, s)

/-- Assigns a variable of the outermost record and makes it if need be. -/
def assignGlobal (s : Store) (chain : Chain) (name : String) (v : Value) : Store :=
  match chain.getLast? with
  | some r => (((s.declare r name true).2).setVariable r name v).2
  | none => s

/-- Deletes the nearest binding; true when there is none. -/
def deleteBinding (s : Store) (name : String) : Chain → Bool × Store
  | [] => (true, s)
  | r :: outer =>
    match s.deleteVariable r name with
    | (some deleted, s) => (deleted, s)
    | (none, s) => s.deleteBinding name outer

/-- The nearest record that grows, or else the outermost one, with the chain around it.
The declarations of code given to `eval` go there. -/
def variableScope (s : Store) : Chain → Chain
  | [] => []
  | [r] => [r]
  | r :: outer => if (s.record r).isDynamic then r :: outer else s.variableScope outer

end Store

end ScriptEngine
