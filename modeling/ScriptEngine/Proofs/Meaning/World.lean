/-
The world that programs are evaluated in when they are taken as trees: a realm
whose functions have no code, and the trees of those functions. Evaluation
gives a value or raises something, and gives nothing when it runs out of
rounds. Main definitions: `Eval`, `call`, `construct` and `evalText`.
-/
import ScriptEngine.Proofs.Meaning.Operation

namespace ScriptEngine

/-! ## What a unit declares -/

/-- The variables that a unit has on entry: its parameters, then its declarations. -/
def entryTable (params : List Identifier) (ds : Array Declaration) : BindingTable :=
  let table := params.foldl (fun t p => t.declare p.name none p.span) .empty
  (ds.foldl (fun (next, t) d =>
    match d.function with
    | some _ => (next + 1, t.declare d.id.name (some next) d.id.span)
    | none => (next, t.declare d.id.name none d.id.span)) (0, table)).2

namespace Meaning

open Realm

/-- What runs when a unit is entered: its declared functions are filled in, then its
statements follow. -/
structure Body where
  functions : List (String × FunctionTree)
  statements : List Stmt
  strict : Bool
  /-- The unit stands for the value of its last expression statement. -/
  keepsValue : Bool

/-- A function as it is written, and whether the code around it is strict. -/
structure Source where
  tree : FunctionTree
  isExpression : Bool
  strict : Bool

namespace Source

def table (src : Source) : BindingTable := entryTable src.tree.params (declarations src.tree.body)

def isStrict (src : Source) : Bool := src.strict || hasUseStrict src.tree.body

/-- A named function expression sees its own name in a scope around it. -/
def bindsOwnName (src : Source) : Bool := src.isExpression && src.tree.id.isSome

def outline (src : Source) : CodeUnit :=
  { name := src.tree.id.map Identifier.name
    kind := .function
    params := src.tree.params.map Identifier.name
    storage := storageOf src.tree.body
    bindings := src.table.names
    instructions := #[]
    constants := #[]
    functions := #[]
    temporaries := 0
    strict := src.isStrict
    bindsOwnName := src.bindsOwnName }

def body (src : Source) : Body :=
  ⟨Lowering.initialFunctions (declarations src.tree.body) src.table.entries, src.tree.body, src.isStrict, false⟩

end Source

/-- The variables that a script or the code of an `eval` has on entry. -/
def programTable (p : Program) : BindingTable := entryTable [] (declarations p.body)

def programBody (p : Program) (strict : Bool) : Body :=
  ⟨Lowering.initialFunctions (declarations p.body) (programTable p).entries, p.body,
    strict || hasUseStrict p.body, true⟩

/-! ## Evaluation -/

structure World where
  realm : Realm
  /-- The functions that programs made, by their number in the store. -/
  sources : Std.TreeMap Nat Source
  /-- The value of the last expression statement. -/
  value : Value

/-- An evaluation. What it did before it raised something stays done. -/
abbrev Eval := ExceptT Raised (StateT World Option)

theorem bind_apply (x : Eval α) (k : α → Eval β) (W : World) :
    (x >>= k) W = match x W with
      | none => none
      | some (.ok a, W') => k a W'
      | some (.error e, W') => some (.error e, W') := by
  simp only [bind, ExceptT.bind, ExceptT.mk, StateT.bind]
  cases h : x W with
  | none => rfl
  | some p =>
    obtain ⟨r, W'⟩ := p
    cases r <;> rfl

def outOfRounds : Eval α := fun _ => none

def perform (x : Action α) : Eval α := fun W =>
  match x W.realm with
  | .ok a r => some (.ok a, { W with realm := r })
  | .error e r => some (.error e, { W with realm := r })

structure Activation where
  chain : Chain
  receiver : Value
  strict : Bool
  keepsValue : Bool

/-- What evaluation needs besides trees: how units run, which programs given to `eval` are
at fault before they run, and how many rounds a loop may go. -/
structure Host where
  run : Body → Chain → Value → Eval Value
  check : Bool → Program → Option Fault
  rounds : Nat

/-! ## Functions -/

def addFunction (src : Source) (chain : Chain) : Eval FunctionRef := do
  let f ← perform (withStore fun s => s.addCallable (.closure src.outline chain))
  modify fun W => { W with sources := W.sources.insert f.index src }
  return f

/-- A new function value. A function that knows its own name closes over a record with it. -/
def makeFunction (src : Source) (chain : Chain) : Eval Value := do
  if src.bindsOwnName then
    let own ← perform (withStore fun s => s.addRecord (.slots #[src.outline.name.getD ""]))
    let f ← addFunction src (own :: chain)
    let _ ← perform (withStore fun s => s.setSlot own 0 (.function f))
    return .function f
  else return .function (← addFunction src chain)

def nested (x : Eval α) : Eval α := fun W =>
  match x { W with realm := { W.realm with depth := W.realm.depth + 1 } } with
  | some (r, W) => some (r, { W with realm := { W.realm with depth := W.realm.depth - 1 } })
  | none => none

def invoke (h : Host) (f : FunctionRef) (unit : CodeUnit) (chain : Chain) (receiver : Value)
    (args : List Value) : Eval Value := do
  let W ← get
  if W.realm.depth ≥ W.realm.options.maxCallDepth then perform (raise (.limit .callDepth))
  else
    let record ← perform (withStore (callRecord unit args))
    match W.sources[f.index]? with
    | some src => nested (h.run src.body (record :: chain) receiver)
    | none => return .undefined

/-- The declarations of code given to `eval` go to the nearest record that grows. -/
def declareVariables (chain : Chain) (names : Array String) (s : Store) : Store :=
  match s.variableScope chain with
  | record :: _ => s.declareAll record names true
  | [] => s

/-- Reads a text as a program and runs it; its declarations can be deleted. -/
def evalText (h : Host) (source : String) (chain : Chain) (receiver : Value) (strict : Bool) : Eval Value := do
  match Program.parse source with
  | .error e => perform (raise (.source e))
  | .ok p =>
    match h.check strict p with
    | some f => perform (raise f)
    | none =>
      let W ← get
      perform (modifyStore (declareVariables chain (programTable p).names))
      h.run (programBody p (strict || W.realm.options.lowering.isStrict)) chain receiver

def callBuiltin (h : Host) (b : Builtin) (args : List Value) : Eval Value := do
  match b with
  | .eval =>
    match args with
    | .string source :: _ => evalText h source [(← get).realm.global] .undefined false
    | v :: _ => return v
    | [] => return .undefined
  | .print =>
    perform (print args)
    return .undefined
  | .makeError kind =>
    let message ← perform (readStore fun s => messageOf s args)
    perform (modifyGet (errorObject kind message))

/-- Calls a value. The description stands for it in a complaint. -/
def call (h : Host) (callee receiver : Value) (args : List Value) (description : String) : Eval Value := do
  match callee with
  | .function f =>
    match ← perform (readStore fun s => s.callable f) with
    | .builtin b => callBuiltin h b args
    | .closure unit chain => invoke h f unit chain receiver args
  | _ => perform (raise (.type (.notFunction description)))

/-- Applies `new`: a function that returns no object stands for the object it was given. -/
def construct (h : Host) (target : Value) (args : List Value) : Eval Value := do
  match ← perform (readStore fun s => constructor? s target) with
  | some (f, .builtin b) =>
    let v ← callBuiltin h b args
    match v with
    | .object made => perform (modifyStore fun s => s.modifyObject made fun o => o.madeWith f)
    | _ => pure ()
    return v
  | some (f, .closure unit chain) =>
    let made ← perform (withStore fun s => s.addObject (Object.empty.madeWith f))
    let v ← invoke h f unit chain (.object made) args
    return if v.isObject then v else .object made
  | none => perform (do raise (.type (.notConstructor (← readStore fun s => s.text target))))

/-- Calls `eval` by its name: code runs in the scope of the caller. -/
def callEval (h : Host) (act : Activation) (callee receiver : Value) (args : List Value)
    (description : String) : Eval Value := do
  if ← perform (readStore fun s => Exec.isEval s callee) then
    match args with
    | .string source :: _ => evalText h source act.chain act.receiver act.strict
    | v :: _ => return v
    | [] => return .undefined
  else call h callee receiver args description

end ScriptEngine.Meaning
