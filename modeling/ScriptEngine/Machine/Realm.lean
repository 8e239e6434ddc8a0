/-
What a running program has besides its frames: the store, the global record,
the options, the number of calls in progress and the text printed so far.
The activities here need no frame: making error objects and beginning calls.
-/
import ScriptEngine.Heap.Compare
import ScriptEngine.Heap.Chain
import ScriptEngine.Lowering.Unit
import ScriptEngine.Machine.Frame
import ScriptEngine.Tree.Grammar

namespace ScriptEngine

structure EngineOptions where
  lowering : LoweringOptions
  /-- The most script calls inside each other. -/
  maxCallDepth : Nat
  deriving Repr, DecidableEq

def EngineOptions.standard : EngineOptions := ⟨.standard, 256⟩

structure Realm where
  store : Store
  global : RecordRef
  options : EngineOptions
  /-- The number of script calls in progress. -/
  depth : Nat
  output : String

/-- What interrupts a run: a fault that the engine found, or a value that a script threw. -/
inductive Raised
  | fault (f : Fault)
  | thrown (v : Value)

/-- An activity on a realm. What it did before it failed stays done. -/
abbrev Action := EStateM Raised Realm

/-- What a call begins with: natives answer at once, script code needs a frame. -/
inductive Begun
  | value (v : Value)
  | frame (f : Frame)

namespace Realm

/-! ## The store -/

def withStore (f : Store → α × Store) : Action α := fun r =>
  let ⟨store, global, options, depth, output⟩ := r
  let (a, store) := f store
  .ok a ⟨store, global, options, depth, output⟩

def modifyStore (f : Store → Store) : Action Unit := withStore fun s => ((), f s)

def readStore (f : Store → α) : Action α := fun r => .ok (f r.store) r

def raise (f : Fault) : Action α := throw (.fault f)

/-- The value of a global variable. -/
def valueOf? (r : Realm) (name : String) : Option Value := r.store.valueOf? r.global name

/-! ## Errors -/

/-- An error object, linked to what the global name of its kind stands for. -/
def errorObject (kind : ErrorKind) (message : String) (r : Realm) : Value × Realm :=
  let maker := r.valueOf? kind.name
  let o := Object.error kind.name message
  let o := match maker with
    | some (.function f) => o.madeWith f
    | _ => o
  let ⟨store, global, options, depth, output⟩ := r
  let (ref, store) := store.addObject o
  (.object ref, ⟨store, global, options, depth, output⟩)

/-- The kind of error object that scripts see for a fault. Internal faults are not
theirs to see. -/
def visibleKind? (f : Fault) : Option ErrorKind :=
  match f.kind with
  | .syntaxError => some .syntaxError
  | .typeError => some .typeError
  | .referenceError => some .referenceError
  | .rangeError => some .rangeError
  | .internalError | .ioError => none

/-- The value that a handler receives. -/
def exceptionValue (e : Raised) (r : Realm) : Option Value × Realm :=
  match e with
  | .thrown v => (some v, r)
  | .fault f =>
    match visibleKind? f with
    | some kind =>
      let (v, r) := r.errorObject kind f.message
      (some v, r)
    | none => (none, r)

/-! ## Beginning to run code -/

/-- The frame of code given to `eval`; its declarations can be deleted. -/
def beginEval (code : CodeUnit) (scope : Chain) (receiver : Value) : Action Frame := do
  modifyStore fun s =>
    match s.variableScope scope with
    | record :: _ => s.declareAll record code.bindings true
    | [] => s
  return .start code scope receiver .program

/-- The frame of a script; its declarations stay. -/
def beginScript (code : CodeUnit) : Action Frame := fun r =>
  let ⟨store, global, options, depth, output⟩ := r
  let store := store.declareAll global code.bindings false
  .ok (.start code [global] .undefined .program) ⟨store, global, options, depth, output⟩

/-- Reads and lowers a text and begins to run it. -/
def evalText (source : String) (scope : Chain) (receiver : Value) (strict : Bool) : Action Frame := do
  let program ← match Program.parse source with
    | .ok p => pure p
    | .error e => raise (.source e)
  let options := (← get).options.lowering
  let code ← match compileEval options strict program with
    | .ok code => pure code
    | .error e => raise e
  beginEval code scope receiver

/-- Code given to `eval` that sees global variables only. -/
def evalGlobal (source : String) : Action Frame := do
  let global := (← get).global
  evalText source [global] .undefined false

/-! ## Calls -/

/-- The texts of values, one after another. -/
def joined (s : Store) (args : List Value) : String := String.intercalate " " (args.map s.text)

def print (args : List Value) : Action Unit := fun r =>
  let line := joined r.store args
  let ⟨store, global, options, depth, output⟩ := r
  .ok () ⟨store, global, options, depth, output ++ line ++ "\n"⟩

/-- The message of an error object made from arguments. -/
def messageOf (s : Store) : List Value → String
  | [] | .undefined :: _ => ""
  | v :: _ => s.text v

def callBuiltin (b : Builtin) (args : List Value) : Action Begun := do
  match b with
  | .eval =>
    match args with
    | .string source :: _ => return .frame (← evalGlobal source)
    | v :: _ => return .value v
    | [] => return .value .undefined
  | .print =>
    print args
    return .value .undefined
  | .makeError kind =>
    let message ← readStore fun s => messageOf s args
    return .value (← modifyGet (errorObject kind message))

/-- The record for the variables of a call, with the parameters bound to the arguments.
Of parameters with one name the last has the say. -/
def callRecord (code : CodeUnit) (args : List Value) (s : Store) : RecordRef × Store :=
  let (record, s) := s.addRecord (match code.storage with
    | .static => Record.slots code.bindings
    | .dynamic => .dynamic ∅)
  let s := match code.storage with
    | .static => s
    | .dynamic => s.declareAll record code.bindings false
  (record, (code.params.zip args).foldl (fun s (param, arg) => (s.setVariable record param arg).2) s)

def callClosure (code : CodeUnit) (scope : Chain) (receiver : Value) (args : List Value)
    (purpose : Purpose) : Action Frame := do
  let r ← get
  if r.depth ≥ r.options.maxCallDepth then raise (.limit .callDepth)
  else
    let record ← withStore (callRecord code args)
    modify fun r => { r with depth := r.depth + 1 }
    return .start code (record :: scope) receiver purpose

/-- Begins a call. The description stands for the callee in a complaint. -/
def call (callee receiver : Value) (args : List Value) (description : String) : Action Begun := do
  match callee with
  | .function f =>
    match ← readStore fun s => s.callable f with
    | .builtin b => callBuiltin b args
    | .closure code scope => return .frame (← callClosure code scope receiver args .call)
  | _ => raise (.type (.notFunction description))

/-- The function that `new` may be applied to. -/
def constructor? (s : Store) : Value → Option (FunctionRef × Callable)
  | .function f => if (s.callable f).isConstructor then some (f, s.callable f) else none
  | _ => none

/-- Begins to apply `new`. -/
def construct (target : Value) (args : List Value) : Action Begun := do
  match ← readStore fun s => constructor? s target with
  | some (f, .builtin b) =>
    let begun ← callBuiltin b args
    match begun with
    | .value (.object made) => modifyStore fun s => s.modifyObject made fun o => o.madeWith f
    | _ => pure ()
    return begun
  | some (f, .closure code scope) =>
    let made ← withStore fun s => s.addObject (Object.empty.madeWith f)
    return .frame (← callClosure code scope (.object made) args (.construct made))
  | none =>
    let text ← readStore fun s => s.text target
    raise (.type (.notConstructor text))

/-- The realm when a frame ends, and the value that the frame stands for. -/
def endFrame (r : Realm) (purpose : Purpose) : Realm :=
  match purpose with
  | .program => r
  | .call | .construct _ => { r with depth := r.depth - 1 }

end Realm

/-- What a frame's value is for whoever asked for it. -/
def Purpose.result (p : Purpose) (v : Value) : Value :=
  match p with
  | .construct made => if v.isObject then v else .object made
  | .program | .call => v

end ScriptEngine
