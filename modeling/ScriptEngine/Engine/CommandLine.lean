/-
The command line: what the words mean, and what a call of the program prints.
-/
import ScriptEngine.Engine.Basic

namespace ScriptEngine.CommandLine

structure Options where
  code : Option String
  strict : Bool
  noLoopRotation : Bool
  maxCallDepth : Option Nat
  verbose : Bool
  /-- The scripts, last first. -/
  scripts : List String

def Options.initial : Options := ⟨none, false, false, none, false, []⟩

def Options.engine (o : Options) : EngineOptions :=
  { lowering := ⟨!o.noLoopRotation, if o.strict then .throwError else .createGlobal, true⟩
    maxCallDepth := o.maxCallDepth.getD 256 }

/-- The program to run. -/
inductive Request
  | version
  | code (options : EngineOptions) (text : String)
  | standardInput (options : EngineOptions)
  | scripts (options : EngineOptions) (paths : List String)

def Options.request (o : Options) : Request :=
  match o.code, o.scripts with
  | some text, _ => .code o.engine text
  | none, [] => .standardInput o.engine
  | none, scripts => .scripts o.engine scripts.reverse

/-- The words cannot be understood. -/
inductive Usage
  | wrong

/-- An option that takes a value. -/
inductive Valued
  | code | maxCallDepth

/-- Options are given once. -/
def once (given : Bool) (o : Options) : Except Usage Options := if given then .error .wrong else .ok o

def Valued.set (v : Valued) (value : String) (o : Options) : Except Usage Options :=
  match v with
  | .code => once o.code.isSome { o with code := some value }
  | .maxCallDepth =>
    match Number.plusUnsigned? 10 (Nat.pow 2 64) value.toList with
    | some n => once o.maxCallDepth.isSome { o with maxCallDepth := some n }
    | none => .error .wrong

/-- What a word is. -/
inductive Word
  /-- All words behind this one are scripts. -/
  | separator
  | version
  | strict | noLoopRotation | verbose
  /-- A value may stand in the same word. -/
  | valued (v : Valued) (value : Option String)
  | plain (text : String)
  | unknown

def Word.ofLong (name : String) (value : Option String) : Word :=
  match name, value with
  | "eval", value => .valued .code value
  | "max-call-depth", value => .valued .maxCallDepth value
  | "strict", none => .strict
  | "no-loop-rotation", none => .noLoopRotation
  | "verbose", none => .verbose
  | "version", none => .version
  | _, _ => .unknown

/-- A long option may have its value behind an equals sign. -/
def Word.ofLongChars (cs : List Char) : Word :=
  let name := String.ofList (cs.takeWhile (· != '='))
  match cs.dropWhile (· != '=') with
  | _ :: value => .ofLong name (some (String.ofList value))
  | [] => .ofLong name none

def Word.of (s : String) : Word :=
  match s.toList with
  | ['-', '-'] => .separator
  | '-' :: '-' :: cs => .ofLongChars cs
  | ['-', 'e'] => .valued .code none
  | '-' :: 'e' :: '=' :: value => .valued .code (some (String.ofList value))
  | '-' :: 'e' :: value => .valued .code (some (String.ofList value))
  | '-' :: 'V' :: _ => .version
  | '-' :: _ :: _ => .unknown
  | _ => .plain s

/-- A script has a name. -/
def addScript (path : String) (o : Options) : Except Usage Options :=
  if path.isEmpty then .error .wrong else .ok { o with scripts := path :: o.scripts }

/-- Reads the words from left to right; the first that decides the matter ends it. -/
def parse : List String → Options → Except Usage Request
  | [], o => .ok o.request
  | w :: ws, o =>
    match Word.of w with
    | .separator => do return (← ws.foldlM (fun o path => addScript path o) o).request
    | .version => .ok .version
    | .strict => do parse ws (← once o.strict { o with strict := true })
    | .noLoopRotation => do parse ws (← once o.noLoopRotation { o with noLoopRotation := true })
    | .verbose => do parse ws (← once o.verbose { o with verbose := true })
    | .valued v (some value) => do parse ws (← v.set value o)
    | .valued v none =>
      match ws with
      | value :: ws =>
        match Word.of value with
        | .plain value => do parse ws (← v.set value o)
        | _ => .error .wrong
      | [] => .error .wrong
    | .plain path => do parse ws (← addScript path o)
    | .unknown => .error .wrong

/-! ## Running -/

/-- What a call of the program leaves behind. The wording of a usage error is open. -/
structure Report where
  code : Nat
  stdout : String
  stderr : Option String

def usageReport : Report := ⟨2, "", none⟩

def versionReport : Report := ⟨0, "kestrel 0.1.0\n", some ""⟩

/-- The input is no text. -/
def inputReport : Report :=
  let message := Engine.ReadFault.notText.message
  ⟨1, "", some s!"Error: {message}\n"⟩

/-- The line that reports a failure, its first word in bold red. -/
def failureLine (s : Store) (f : Failure) : String :=
  "\x1b[1m\x1b[31mError\x1b[39m\x1b[0m: " ++ f.text s ++ "\n"

/-- Reports answers in order up to the first failure. With `echo`, values are shown. -/
def report (e : Engine) (echo : Bool) : List Answer → Report
  | [] => ⟨0, e.output, some ""⟩
  | .ok v :: answers =>
    if echo && !v.isUndefined then
      report { e with output := e.output ++ e.store.text v ++ "\n" } echo answers
    else report e echo answers
  | .error f :: _ => ⟨1, e.output, some (failureLine e.store f)⟩

/-- Runs one program and shows its value. -/
def runCode (fuel : Nat) (options : EngineOptions) (text : String) : Option Report := do
  let (a, e) ← Engine.eval fuel text (Realm.start options)
  return report e true [a]

def runInput (fuel : Nat) (options : EngineOptions) (input : ByteArray) : Option Report :=
  match Engine.readText (some input) with
  | .ok text => runCode fuel options text
  | .error _ => some inputReport

/-- Runs all scripts before anything is reported. -/
def runScripts (fuel : Nat) (options : EngineOptions) (files : List (String × Option ByteArray)) :
    Option Report := do
  let (answers, e) ← Engine.evalFiles fuel files (Realm.start options)
  return report e false answers

end ScriptEngine.CommandLine
