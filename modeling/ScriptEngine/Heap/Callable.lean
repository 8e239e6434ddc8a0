/-
Functions as values: closures of script code, and the functions that every
program finds in its global environment.
-/
import ScriptEngine.Code.CodeUnit

namespace ScriptEngine

/-- The errors that scripts can tell apart. -/
inductive ErrorKind
  | error | rangeError | referenceError | syntaxError | typeError
  deriving Repr, DecidableEq

namespace ErrorKind

def all : List ErrorKind := [.error, .rangeError, .referenceError, .syntaxError, .typeError]

def name : ErrorKind → String
  | .error => "Error"
  | .rangeError => "RangeError"
  | .referenceError => "ReferenceError"
  | .syntaxError => "SyntaxError"
  | .typeError => "TypeError"

end ErrorKind

inductive Builtin
  | eval
  | print
  /-- Makes an error object, with or without `new`. -/
  | makeError (kind : ErrorKind)
  deriving Repr, DecidableEq

namespace Builtin

def name : Builtin → String
  | .eval => "eval"
  | .print => "print"
  | .makeError kind => kind.name

def arity : Builtin → Nat
  | .print => 0
  | _ => 1

def isConstructor : Builtin → Bool
  | .makeError _ => true
  | _ => false

end Builtin

/-- The chain of environment records that code runs in, innermost first. -/
abbrev Chain := List RecordRef

inductive Callable
  | closure (code : CodeUnit) (scope : Chain)
  | builtin (b : Builtin)

namespace Callable

instance : Inhabited Callable := ⟨.builtin .eval⟩

/-- The name of a function; empty when it has none. -/
def name : Callable → String
  | .closure code _ => code.name.getD ""
  | .builtin b => b.name

def arity : Callable → Nat
  | .closure code _ => code.arity
  | .builtin b => b.arity

/-- `new` may be applied to the function. -/
def isConstructor : Callable → Bool
  | .closure .. => true
  | .builtin b => b.isConstructor

/-- How a function is shown. -/
def text : Callable → String
  | .closure code _ =>
    match code.name with
    | some name => s!"[Function: {name}]"
    | none => "[Function (anonymous)]"
  | .builtin b =>
    let name := b.name
    s!"[Function: {name} (native)]"

end Callable

end ScriptEngine
