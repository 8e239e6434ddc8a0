/-
The engine: a realm with the built-in globals in which programs run one after
another and see what the ones before them left.
-/
import ScriptEngine.Engine.Failure
import ScriptEngine.Machine.Run

namespace ScriptEngine

/-! ## Globals -/

/-- What a program finds in its global environment. -/
inductive GlobalValue
  | builtin (b : Builtin)
  | constant (v : Value)

/-- The built-in globals in order. -/
def builtinGlobals : List (String × GlobalValue) :=
  [("eval", .builtin .eval), ("print", .builtin .print), ("NaN", .constant (.number Number.nan)),
    ("Infinity", .constant (.number Number.infinity)), ("undefined", .constant .undefined)] ++
    ErrorKind.all.map fun kind => (kind.name, .builtin (.makeError kind))

/-- A fresh value for a built-in global. -/
def GlobalValue.make (g : GlobalValue) (s : Store) : Value × Store :=
  match g with
  | .builtin b =>
    let (f, s) := s.addCallable (.builtin b)
    (.function f, s)
  | .constant v => (v, s)

/-- Binds every built-in global for good. -/
def Store.installGlobals (s : Store) (global : RecordRef) : Store :=
  builtinGlobals.foldl (fun s (name, g) =>
    let (_, s) := s.declare global name false
    let (v, s) := g.make s
    (s.setVariable global name v).2) s

/-- An engine is a realm between two programs. -/
abbrev Engine := Realm

namespace Realm

/-- A realm in which no program has run. -/
def start (options : EngineOptions) : Realm :=
  let (global, store) := Store.empty.addRecord (.dynamic ∅)
  ⟨store.installGlobals global, global, options, 0, ""⟩

/-- The realm with the printed text taken out. -/
def takeOutput (r : Realm) : String × Realm := (r.output, { r with output := "" })

/-- Does something in a realm and runs the frame that it asks for, if any, for at most
`fuel` steps. -/
def complete (fuel : Nat) (x : Action Begun) (r : Realm) : Option Outcome :=
  match x r with
  | .ok (.value v) r => some ⟨.ok v, r⟩
  | .ok (.frame f) r => Machine.run fuel ⟨r, f, []⟩
  | .error e r => some ⟨.error e, r⟩

def runScript (fuel : Nat) (code : CodeUnit) (r : Realm) : Option Outcome :=
  r.complete fuel (Begun.frame <$> beginScript code)

def runEval (fuel : Nat) (code : CodeUnit) (scope : Chain) (receiver : Value) (r : Realm) : Option Outcome :=
  r.complete fuel (Begun.frame <$> beginEval code scope receiver)

def runEvalGlobal (fuel : Nat) (source : String) (r : Realm) : Option Outcome :=
  r.complete fuel (Begun.frame <$> evalGlobal source)

/-- Calls a value from outside, where its text describes it. -/
def runCall (fuel : Nat) (callee receiver : Value) (args : List Value) (r : Realm) : Option Outcome :=
  let description := r.store.text callee
  r.complete fuel (call callee receiver args description)

def runConstruct (fuel : Nat) (target : Value) (args : List Value) (r : Realm) : Option Outcome :=
  r.complete fuel (construct target args)

end Realm

/-- Reads and lowers a script. -/
def compileSource (options : LoweringOptions) (source : String) : Except Fault CodeUnit :=
  match Program.parse source with
  | .ok p => compile options p
  | .error e => .error (.source e)

/-- What a program came to. -/
abbrev Answer := Except Failure Value

namespace Engine

/-- More steps than a run can take in practice. -/
def budget : Nat := Nat.pow 10 18

/-- The answer to a run that is over, and the engine behind it. -/
def answer (o : Outcome) : Answer × Engine :=
  match o.result with
  | .ok v => (.ok v, o.realm)
  | .error e => (.error (.ofRaised o.realm.store e), o.realm)

/-- Runs a script; none when it does not end within `fuel` steps. -/
def eval (fuel : Nat) (source : String) (e : Engine) : Option (Answer × Engine) :=
  match compileSource e.options.lowering source with
  | .ok code => (e.runScript fuel code).map answer
  | .error f => some (.error (.report f.kind f.message), e)

/-- Why the text of a file could not be had. -/
inductive ReadFault
  | missing | notText
  deriving Repr, DecidableEq

def ReadFault.message : ReadFault → String
  | .missing => "No such file or directory (os error 2)"
  | .notText => "stream did not contain valid UTF-8"

/-- The text of a file, if there is such a file. -/
def readText : Option ByteArray → Except ReadFault String
  | none => .error .missing
  | some bytes =>
    match String.fromUTF8? bytes with
    | some s => .ok s
    | none => .error .notText

/-- Runs the script in a file. -/
def evalFile (fuel : Nat) (path : String) (content : Option ByteArray) (e : Engine) :
    Option (Answer × Engine) :=
  match readText content with
  | .ok source => e.eval fuel source
  | .error f =>
    let message := f.message
    some (.error (.report .ioError s!"Failed to read {path}: {message}"), e)

/-- Runs the scripts in several files; a failure does not keep the next from running. -/
def evalFiles (fuel : Nat) (files : List (String × Option ByteArray)) (e : Engine) :
    Option (List Answer × Engine) := do
  let (answers, e) ← files.foldlM (fun (answers, e) (path, content) => do
    let (a, e) ← evalFile fuel path content e
    return (a :: answers, e)) ([], e)
  return (answers.reverse, e)

end Engine

end ScriptEngine
