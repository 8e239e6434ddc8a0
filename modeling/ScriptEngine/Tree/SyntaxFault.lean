/-
Why a text is not a program, and the words for it.
-/
import ScriptEngine.Operator.Basic

namespace ScriptEngine

/-- The constructs that need something assignable. -/
inductive TargetUse
  | assignment | update | forIn
  deriving Repr, DecidableEq

def TargetUse.name : TargetUse → String
  | .assignment => "assignment"
  | .update => "update"
  | .forIn => "for-in"

inductive SyntaxFault
  -- tokens
  | lexical (fault : LexicalFault) (place : Span)
  | unexpectedToken (found : TokenKind) (place : Span)
  | expectedToken (wanted found : TokenKind) (place : Span)
  | expectedSemicolon (found : TokenKind) (place : Span)
  | expectedIdentifier (found : TokenKind) (place : Span)
  -- statements
  | lexicalDeclaration (place : Span)
  | lexicalLoopDeclaration
  | repeatedLabel (name : String)
  | repeatedDefault
  | expectedCase
  | loopTarget
  | newlineAfterThrow
  | attemptAlone
  -- operators
  | unexpectedOperand (kind : OperatorKind)
  | operandCount (kind : OperatorKind) (arity found : Nat)
  | missingClosing (kind : OperatorKind)
  | expectedProperty (found : Expr)
  | invalidTarget (use : TargetUse)
  /-- An operator builds from more operands than it counts. The table is wrong then, not the text. -/
  | outOfOperands
  -- jumps and targets
  | illegalReturn
  | illegalBreak
  | illegalContinue
  | undefinedLabel (name : String)
  | continueOutsideLoop (name : String)
  | invalidLeftSide (use : TargetUse)
  | emptySequence
  | secondCatchVariable (first name : String)
  /-- The bound on nesting was too small; a bound taken from the number of
  tokens never is. -/
  | exhausted

def SyntaxFault.message : SyntaxFault → String
  | .lexical fault place => s!"{fault.message} at {place.text}"
  | .unexpectedToken found place => s!"Unexpected token {found.describe} at {place.text}"
  | .expectedToken wanted found place =>
    s!"Expected {wanted.describe}, found {found.describe} at {place.text}"
  | .expectedSemicolon found place => s!"Expected ';', found {found.describe} at {place.text}"
  | .expectedIdentifier found place =>
    s!"Expected identifier, found {found.describe} at {place.text}"
  | .lexicalDeclaration place =>
    s!"Lexical declarations are not supported at {place.text}; use 'var'"
  | .lexicalLoopDeclaration => "Lexical declarations are not supported; use 'var'"
  | .repeatedLabel name => s!"Label '{name}' has already been declared"
  | .repeatedDefault => "More than one default clause in switch statement"
  | .expectedCase => "Expected 'case' or 'default'"
  | .loopTarget => "Invalid left-hand side in for-in loop"
  | .newlineAfterThrow => "Illegal newline after throw"
  | .attemptAlone => "Missing catch or finally after try"
  | .unexpectedOperand kind => s!"Unexpected operand for {kind.describe}"
  | .operandCount kind arity found => s!"{kind.describe} expects {arity} operand(s), found {found}"
  | .missingClosing kind => s!"Missing closing token for {kind.describe}"
  | .expectedProperty found => s!"Expected property name, found {found.describe}"
  | .invalidTarget use => s!"Invalid {use.name} target"
  | .outOfOperands => "operator node ran out of operands"
  | .illegalReturn => "Illegal return statement"
  | .illegalBreak => "Illegal break statement"
  | .illegalContinue => "Illegal continue statement"
  | .undefinedLabel name => s!"Undefined label '{name}'"
  | .continueOutsideLoop name =>
    s!"Illegal continue statement: '{name}' does not denote an iteration statement"
  | .invalidLeftSide use => s!"Invalid left-hand side in {use.name}"
  | .emptySequence => "Empty comma expression"
  | .secondCatchVariable first name =>
    s!"Catch scope already declares '{first}'; cannot declare '{name}'"
  | .exhausted => "Nesting too deep"

/-- A fault of the reader itself, for which no text is to blame. -/
def SyntaxFault.isInternal : SyntaxFault → Bool
  | .outOfOperands | .exhausted => true
  | _ => false

end ScriptEngine
