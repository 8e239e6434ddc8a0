/-
Everything the engine itself can report, by cause. Each cause has a kind that
scripts and callers can tell apart, and one text.
-/
import ScriptEngine.Tree.SyntaxFault
import ScriptEngine.Code.Instruction

namespace ScriptEngine

/-- The kinds of failure that callers see. -/
inductive FailureKind
  | syntaxError | typeError | referenceError | rangeError | internalError | ioError
  deriving Repr, DecidableEq

def FailureKind.name : FailureKind → String
  | .syntaxError => "SyntaxError"
  | .typeError => "TypeError"
  | .referenceError => "ReferenceError"
  | .rangeError => "RangeError"
  | .internalError => "InternalError"
  | .ioError => "IOError"

/-- A bound that a program went over. -/
inductive LimitFault
  | locals | constants | functions | arguments | arrayLiteral | callDepth
  deriving Repr, DecidableEq

def LimitFault.message : LimitFault → String
  | .locals => "Too many locals"
  | .constants => "Too many constants"
  | .functions => "Too many functions"
  | .arguments => "Too many arguments"
  | .arrayLiteral => "Array literal too large"
  | .callDepth => "Maximum call stack size exceeded"

/-- A value of the wrong type for an operation. -/
inductive TypeFault
  | notFunction (description : String)
  | notConstructor (text : String)
  | readProperty (key base : String)
  | setProperty (key base : String)
  | deleteProperty (key base : String)
  | inOperator (key text : String)
  | instanceOf
  | withObject (text : String)
  deriving Repr, DecidableEq

def TypeFault.message : TypeFault → String
  | .notFunction description => s!"{description} is not a function"
  | .notConstructor text => s!"{text} is not a constructor"
  | .readProperty key base => s!"Cannot read property '{key}' of {base}"
  | .setProperty key base => s!"Cannot set property '{key}' of {base}"
  | .deleteProperty key base => s!"Cannot delete property '{key}' of {base}"
  | .inOperator key text => s!"Cannot use 'in' operator to search for '{key}' in {text}"
  | .instanceOf => "Right-hand side of 'instanceof' is not callable"
  | .withObject text => s!"Cannot use {text} as a with-statement object"

/-- A broken promise inside the engine. -/
inductive InternalFault
  | labelNeverMarked (label : Nat)
  | scopeWithoutParent
  | catchVariableOutside
  | unbalanced (place : Span) (found expected : Int)
  | stackUnderflow
  | badOperand (opcode : Opcode)
  | constantRange (index : Nat)
  | functionRange (index : Nat)
  | noSlot (index depth : Nat)
  | outermostScope
  /-- The bound on nested functions was too small; the nesting of the program never is. -/
  | exhausted
  deriving Repr, DecidableEq

def InternalFault.message : InternalFault → String
  | .labelNeverMarked label => s!"label {label} never marked"
  | .scopeWithoutParent => "catch or with scope without a parent"
  | .catchVariableOutside => "catch variable declared outside a catch scope"
  | .unbalanced place found expected =>
    s!"statement at {place.text} left the operand stack at {found} (expected {expected})"
  | .stackUnderflow => "Stack underflow"
  | .badOperand opcode => s!"{opcode.name} with a missing or mismatched operand"
  | .constantRange index => s!"constant {index} out of range"
  | .functionRange index => s!"function {index} out of range"
  | .noSlot index depth => s!"no slot {index} at depth {depth}"
  | .outermostScope => "PopScope at the outermost scope"
  | .exhausted => "nesting of functions too deep"

inductive Fault
  | source (cause : SyntaxFault)
  | type (cause : TypeFault)
  | unbound (name : String)
  | limit (cause : LimitFault)
  | internal (cause : InternalFault)

namespace Fault

def kind : Fault → FailureKind
  | .source _ => .syntaxError
  | .type _ => .typeError
  | .unbound _ => .referenceError
  | .limit _ => .rangeError
  | .internal _ => .internalError

def message : Fault → String
  | .source cause => cause.message
  | .type cause => cause.message
  | .unbound name => s!"{name} is not defined"
  | .limit cause => cause.message
  | .internal cause => cause.message

end Fault

end ScriptEngine
