/-
The scopes a program is lowered in. Scopes are numbered and never go away.
A scope knows the chain of scopes around it, and the index of a variable in
its scope never changes, so code that refers to an index stays valid.
-/
import ScriptEngine.Code.CodeUnit
import ScriptEngine.Fault

namespace ScriptEngine

/-- The number of a scope. -/
structure ScopeRef where
  index : Nat
  deriving Repr, DecidableEq, Inhabited

/-- The construct that introduced a scope. -/
inductive ScopeKind
  | global | function | eval
  /-- Holds the variable of a catch clause. -/
  | catchClause
  /-- Holds the own name of a function expression. -/
  | callee
  | withObject
  deriving Repr, DecidableEq, Inhabited

namespace ScopeKind

/-- Declarations made in such a scope belong to a scope around it. -/
def delegates : ScopeKind → Bool
  | .catchClause | .callee | .withObject => true
  | _ => false

/-- Only functions choose their storage. -/
def storage (k : ScopeKind) (wanted : Storage) : Storage :=
  match k with
  | .global | .eval | .withObject => .dynamic
  | .catchClause | .callee => .static
  | .function => wanted

end ScopeKind

structure Variable where
  name : String
  /-- The number of the function declaration that fills the variable on entry. -/
  initializer : Option Nat
  /-- The first declaration. -/
  span : Span
  deriving Repr, DecidableEq, Inhabited

/-- The variables of a scope in order of declaration, with an index by name. -/
structure BindingTable where
  positions : Std.TreeMap String Nat
  entries : Array Variable
  deriving Inhabited

namespace BindingTable

def empty : BindingTable := ⟨∅, #[]⟩

def size (t : BindingTable) : Nat := t.entries.size

def isEmpty (t : BindingTable) : Bool := t.entries.isEmpty

def indexOf? (t : BindingTable) (name : String) : Option Nat := t.positions[name]?

def has (t : BindingTable) (name : String) : Bool := (t.indexOf? name).isSome

def names (t : BindingTable) : Array String := t.entries.map Variable.name

/-- The index a name has, or gets when it is declared. -/
def slotFor (t : BindingTable) (name : String) : Nat := (t.indexOf? name).getD t.size

/-- Declares a name. A name that is there keeps its index; a later function
takes the place of an earlier one. -/
def declare (t : BindingTable) (name : String) (initializer : Option Nat) (span : Span) : BindingTable :=
  match t.indexOf? name with
  | some i =>
    match initializer with
    | some f => { t with entries := t.entries.modify i fun v => { v with initializer := some f } }
    | none => t
  | none => ⟨t.positions.insert name t.size, t.entries.push ⟨name, initializer, span⟩⟩

end BindingTable

structure Scope where
  /-- The scopes around this one, nearest first. -/
  outer : List ScopeRef
  kind : ScopeKind
  storage : Storage
  bindings : BindingTable

instance : Inhabited Scope := ⟨⟨[], .global, .dynamic, .empty⟩⟩

namespace Scope

def parent (s : Scope) : Option ScopeRef := s.outer.head?

/-- Names have to be looked up when the code runs. -/
def isOpaque (s : Scope) : Bool := s.storage == .dynamic || s.kind == .withObject

end Scope

/-- Where code finds a variable: in a slot of the record some links up the
chain, or by its name. -/
inductive Resolution
  | slot (depth index : Nat)
  | byName
  deriving Repr, DecidableEq

structure ScopeArena where
  scopes : Array Scope

namespace ScopeArena

def empty : ScopeArena := ⟨#[]⟩

def get (a : ScopeArena) (s : ScopeRef) : Scope := a.scopes.getD s.index default

/-- A scope and those around it. -/
def chain (a : ScopeArena) (s : ScopeRef) : List ScopeRef := s :: (a.get s).outer

def push (a : ScopeArena) (parent : Option ScopeRef) (kind : ScopeKind) (wanted : Storage) :
    ScopeRef × ScopeArena :=
  let outer := (parent.map a.chain).getD []
  (⟨a.scopes.size⟩, ⟨a.scopes.push ⟨outer, kind, kind.storage wanted, .empty⟩⟩)

/-- The scope that declarations made in `s` belong to. -/
def owner (a : ScopeArena) (s : ScopeRef) : Except Fault ScopeRef :=
  match (a.chain s).find? fun r => !(a.get r).kind.delegates with
  | some r => .ok r
  | none => .error (.internal .scopeWithoutParent)

/-- Declares in one scope of the arena. -/
def declareIn (a : ScopeArena) (s : ScopeRef) (name : String) (initializer : Option Nat) (span : Span) :
    Nat × ScopeArena :=
  let index := (a.get s).bindings.slotFor name
  (index, ⟨a.scopes.modify s.index fun sc =>
    { sc with bindings := sc.bindings.declare name initializer span }⟩)

def declare (a : ScopeArena) (s : ScopeRef) (name : String) (initializer : Option Nat) (span : Span) :
    Except Fault (ScopeRef × Nat × ScopeArena) := do
  let o ← a.owner s
  .ok (o, a.declareIn o name initializer span)

/-- Declares the one variable of a catch clause or of a function's own name. -/
def declareCatch (a : ScopeArena) (s : ScopeRef) (name : String) (span : Span) :
    Except Fault (Nat × ScopeArena) :=
  match (a.get s).kind with
  | .catchClause | .callee =>
    match (a.get s).bindings.entries[0]? with
    | some first => .error (.source (.secondCatchVariable first.name name))
    | none => .ok (a.declareIn s name none span)
  | _ => .error (.internal .catchVariableOutside)

def has (a : ScopeArena) (s : ScopeRef) (name : String) : Bool := (a.get s).bindings.has name

def indexOf? (a : ScopeArena) (s : ScopeRef) (name : String) : Option Nat :=
  (a.get s).bindings.indexOf? name

/-- Looks for a name along a chain; an opaque scope ends the search. -/
def resolveIn (a : ScopeArena) (name : String) : List ScopeRef → Nat → Resolution
  | [], _ => .byName
  | s :: outer, depth =>
    if (a.get s).isOpaque then .byName
    else
      match a.indexOf? s name with
      | some index => .slot depth index
      | none => resolveIn a name outer (depth + 1)

def resolve (a : ScopeArena) (s : ScopeRef) (name : String) : Resolution :=
  a.resolveIn name (a.chain s) 0

end ScopeArena

end ScriptEngine
