/-
Running units and scripts as trees. The number that bounds a run bounds how
deep units run inside each other and how many rounds each loop goes. Main
definitions: `run`, `World.eval` and `World.evalAll`.
-/
import ScriptEngine.Proofs.Machine.Outline
import ScriptEngine.Proofs.Meaning.Statement
import ScriptEngine.Engine.Basic

namespace ScriptEngine

namespace Meaning

open Realm

def fillFunctions (act : Activation) : List (String × FunctionTree) → Eval Unit
  | [] => return
  | (name, f) :: fs => do
    writeName act name (← makeFunction ⟨f, false, act.strict⟩ act.chain)
    fillFunctions act fs

/-- Evaluates with no value yet; the value from before is there again afterwards. -/
def withoutValue (x : Eval α) : Eval α := fun W =>
  match x { W with value := .undefined } with
  | some (r, W') => some (r, { W' with value := W.value })
  | none => none

def unitValue (keepsValue : Bool) (exit : Exit) : Eval Value := do
  match exit with
  | .returns v => return v
  | _ => if keepsValue then return (← get).value else return .undefined

def runBody (h : Host) (b : Body) (chain : Chain) (receiver : Value) : Eval Value :=
  let act : Activation := ⟨chain, receiver, b.strict, b.keepsValue⟩
  withoutValue do
    fillFunctions act b.functions
    unitValue b.keepsValue (← evalBody h b.statements act)

def host (check : Bool → Program → Option Fault) : Nat → Host
  | 0 => ⟨fun _ _ _ => outOfRounds, check, 1⟩
  | n + 1 => ⟨runBody (host check n), check, n + 2⟩

/-- Runs a unit with a bound on the rounds of loops and the nesting of units. -/
def run (check : Bool → Program → Option Fault) (n : Nat) : Body → Chain → Value → Eval Value :=
  (host check n).run

def runScript (check : Bool → Program → Option Fault) (n : Nat) (p : Program) : Eval Value := do
  let r := (← get).realm
  perform (modifyStore fun s => s.declareAll r.global (programTable p).names false)
  run check n (programBody p r.options.lowering.isStrict) [r.global] .undefined

def World.start (options : EngineOptions) : World := ⟨(Realm.start options).outline, ∅, .undefined⟩

/-- The fault that keeps a program given to `eval` from running. -/
def evalFault (o : LoweringOptions) (strict : Bool) (p : Program) : Option Fault :=
  match compileEval o strict p with
  | .ok _ => none
  | .error f => some f

/-- The program of a script that nothing keeps from running. -/
def readScript (o : LoweringOptions) (source : String) : Except Fault Program :=
  match Program.parse source with
  | .error e => .error (.source e)
  | .ok p =>
    match compile o p with
    | .ok _ => .ok p
    | .error f => .error f

namespace World

def answer (W : World) (result : Except Raised Value) : Answer := result.mapError (Failure.ofRaised W.realm.store)

/-- Evaluates a script; none when the bound does not suffice. -/
def eval (options : EngineOptions) (n : Nat) (source : String) (W : World) : Option (Answer × World) :=
  match readScript options.lowering source with
  | .ok p => (runScript (evalFault options.lowering) n p W).map fun (result, W) => (W.answer result, W)
  | .error f => some (.error (.report f.kind f.message), W)

def evalAll (options : EngineOptions) (n : Nat) : List String → World → Option (List Answer × World)
  | [], W => some ([], W)
  | source :: sources, W => do
    let (a, W) ← W.eval options n source
    let (as, W) ← evalAll options n sources W
    return (a :: as, W)

end World

end Meaning

def Engine.evalAll (fuel : Nat) : List String → Engine → Option (List Answer × Engine)
  | [], e => some ([], e)
  | source :: sources, e => do
    let (a, e) ← Engine.eval fuel source e
    let (as, e) ← Engine.evalAll fuel sources e
    return (a :: as, e)

end ScriptEngine
