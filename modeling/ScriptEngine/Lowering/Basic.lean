/-
The state and context of lowering. The state holds the scopes and the code of
the unit so far. The context says where a piece of the program stands: its
scope and the constructs around it, which jumps have to leave properly.
-/
import ScriptEngine.Code.Builder
import ScriptEngine.Scope.Arena
import ScriptEngine.Lowering.Options

namespace ScriptEngine.Lowering

structure State where
  scopes : ScopeArena
  builder : Builder

end Lowering

/-- A step of lowering. -/
abbrev Lowering := StateT Lowering.State (Except Fault)

namespace Lowering

/-- What a construct that can be left by a jump was written as. -/
inductive BreakableKind
  | loop | switch | labelled
  deriving Repr, DecidableEq

/-- A construct around the code being lowered. -/
inductive Region
  | breakable (labels : List String) (kind : BreakableKind) (breakTo : Label) (continueTo : Option Label)
  /-- An open exception region. Leaving it runs its finalizer, which is lowered
  as it stands at the region's own statement. -/
  | attempt (finalizer : Option (Lowering Unit))
  /-- A scope that exists while the code runs. -/
  | scope

structure Context where
  options : LoweringOptions
  kind : UnitKind
  scope : ScopeRef
  strict : Bool
  /-- The temporary that holds the value of the last expression statement. -/
  completion : Option Nat
  /-- The constructs around this one, innermost first. -/
  regions : List Region

namespace Context

/-- The context inside one more construct. -/
def within (ctx : Context) (r : Region) : Context := { ctx with regions := r :: ctx.regions }

/-- The context inside a scope that exists while the code runs. -/
def inScope (ctx : Context) (s : ScopeRef) : Context :=
  { ctx with scope := s, regions := .scope :: ctx.regions }

end Context

/-! ## Steps on the builder -/

def modifyBuilder (f : Builder → Builder) : Lowering Unit :=
  fun ⟨scopes, builder⟩ => .ok ((), ⟨scopes, f builder⟩)

def onBuilder (f : Building α) : Lowering α :=
  fun ⟨scopes, builder⟩ =>
    match f builder with
    | .ok a builder => .ok (a, ⟨scopes, builder⟩)
    | .error e _ => .error e

def emit (op : Opcode) : Lowering Unit := modifyBuilder fun b => b.emit ⟨op, none⟩

def emitWith (op : Opcode) (operand : Operand) : Lowering Unit :=
  modifyBuilder fun b => b.emit ⟨op, some operand⟩

def emitSlot (op : Opcode) (name : String) (operand : Operand) : Lowering Unit :=
  modifyBuilder fun b => b.emitSlot name ⟨op, some operand⟩

/-- A variable with a slot cannot be deleted. -/
def emitKept (name : String) : Lowering Unit := modifyBuilder fun b => b.emitSlot name ⟨.loadFalse, none⟩

def emitJump (op : Opcode) (label : Label) : Lowering Unit := modifyBuilder fun b => b.emitJump op label

def newLabel : Lowering Label :=
  fun ⟨scopes, builder⟩ =>
    let (label, builder) := builder.newLabel
    .ok (label, ⟨scopes, builder⟩)

def mark (label : Label) : Lowering Unit := modifyBuilder fun b => b.mark label

def newTemporary : Lowering Nat := onBuilder Builder.newTemporary

def numberConstant (n : Float) : Lowering Nat := onBuilder (Builder.numberConstant n.toBits)

def stringConstant (s : String) : Lowering Nat := onBuilder (Builder.stringConstant s)

def addFunction (u : CodeUnit) : Lowering Nat := onBuilder (Builder.addFunction u)

def stackDepth : Lowering Int := do return (← get).builder.depth

/-! ## Steps on the scopes -/

def onScopes (f : ScopeArena → Except Fault (α × ScopeArena)) : Lowering α :=
  fun ⟨scopes, builder⟩ =>
    match f scopes with
    | .ok (a, scopes) => .ok (a, ⟨scopes, builder⟩)
    | .error e => .error e

/-- A scope for a clause that binds one name. -/
def bindingScope (parent : ScopeRef) (kind : ScopeKind) (id : Identifier) : Lowering ScopeRef :=
  onScopes fun a => do
    let (s, a) := a.push (some parent) kind .static
    let (_, a) ← a.declareCatch s id.name id.span
    .ok (s, a)

def withScope (parent : ScopeRef) : Lowering ScopeRef :=
  onScopes fun a => .ok (a.push (some parent) .withObject .dynamic)

def resolve (ctx : Context) (name : String) : Lowering Resolution := do
  return (← get).scopes.resolve ctx.scope name

/-! ## Names -/

/-- Slots are addressed with sixteen bits. -/
def slotOperand (depth index : Nat) : Lowering Operand :=
  if depth < poolLimit && index < poolLimit then return .slot depth index
  else throw (.limit .locals)

/-- Pushes the value of a variable. -/
def load (ctx : Context) (name : String) : Lowering Unit := do
  match ← resolve ctx name with
  | .slot depth index => emitSlot .loadSlot name (← slotOperand depth index)
  | .byName => emitWith .loadName (.property (← stringConstant name))

/-- Stores the top of the stack into a variable and leaves it there. -/
def store (ctx : Context) (name : String) : Lowering Unit := do
  match ← resolve ctx name with
  | .slot depth index => emitSlot .storeSlot name (← slotOperand depth index)
  | .byName =>
    let key ← stringConstant name
    emitWith (if ctx.strict then .storeNameStrict else .storeName) (.property key)

def pushString (s : String) : Lowering Unit := do
  emitWith .loadConst (.constant (← stringConstant s))

/-! ## Nested functions -/

/-- How a function becomes a unit: given the function, whether it is an expression, the
scope it stands in and whether the code around it is strict. -/
abbrev FunctionLowering :=
  FunctionTree → Bool → ScopeRef → Bool → StateT ScopeArena (Except Fault) CodeUnit

/-- Pushes a closure of a function. -/
def pushClosure (inner : FunctionLowering) (ctx : Context) (f : FunctionTree) (isExpression : Bool) :
    Lowering Unit := do
  let u ← onScopes fun a => inner f isExpression ctx.scope ctx.strict a
  emitWith .closure (.function (← addFunction u))

end ScriptEngine.Lowering
