/-
The operator table. Every operator has a binding power and, for its right
operands, the least binding power they must have without parentheses.
-/
import ScriptEngine.Source.Token
import ScriptEngine.Tree.Basic

namespace ScriptEngine

/-- What an operator builds. -/
inductive OperatorKind
  | grouping
  | call
  | member
  | index
  | new
  | assignment (op : Option BinaryOp)
  | conditional
  | comma
  | unary (op : UnaryOp)
  | updateBefore (op : UpdateOp)
  | updateAfter (op : UpdateOp)
  | binary (op : BinaryOp)
  | logical (op : LogicalOp)
  deriving Repr, DecidableEq

/-- The kind as messages show it. -/
def OperatorKind.describe : OperatorKind → String
  | .grouping => "Grouping"
  | .call => "FunctionCall"
  | .member => "Member"
  | .index => "Index"
  | .new => "New"
  | .assignment none => "Assignment(None)"
  | .assignment (some op) => "Assignment(Some(" ++ op.name ++ "))"
  | .conditional => "Conditional"
  | .comma => "Comma"
  | .unary op => "Unary(" ++ op.name ++ ")"
  | .updateBefore op => "PrefixUpdate(" ++ op.name ++ ")"
  | .updateAfter op => "PostfixUpdate(" ++ op.name ++ ")"
  | .binary op => "Binary(" ++ op.name ++ ")"
  | .logical op => "Logical(" ++ op.name ++ ")"

/-! ## Binding powers, tighter is greater -/

namespace Precedence

def comma : Nat := 1
def assignment : Nat := 2
def conditional : Nat := 3
def logicalOr : Nat := 4
def logicalAnd : Nat := 5
def bitwiseOr : Nat := 6
def bitwiseXor : Nat := 7
def bitwiseAnd : Nat := 8
def equality : Nat := 9
def relational : Nat := 10
def shift : Nat := 11
def additive : Nat := 12
def multiplicative : Nat := 13
def unary : Nat := 14
def update : Nat := 15
/-- A `new` without arguments. -/
def new : Nat := 16
def member : Nat := 17
/-- Parentheses, and a `new` with arguments. -/
def greatest : Nat := 255

end Precedence

/-- Where an operator takes operands, and whether a closing or separating
token belongs to it. -/
structure OperandPlaces where
  left : Bool
  right : Bool
  secondRight : Bool
  closing : Bool
  deriving Repr, DecidableEq

/-- The four places as the bits of a number. -/
def OperandPlaces.bits (p : OperandPlaces) : Nat :=
  p.left.toNat + 2 * p.right.toNat + 4 * p.secondRight.toNat + 8 * p.closing.toNat

structure Operator where
  kind : OperatorKind
  arity : Nat
  /-- The operator's own binding power. -/
  primary : Nat
  /-- The least binding power of the right operand. -/
  secondary : Nat
  /-- The least binding power of the third operand. -/
  tertiary : Nat
  places : OperandPlaces
  deriving Repr, DecidableEq

namespace Operator

/-- An operator whose operands bind at least as tightly as itself. -/
def level (kind : OperatorKind) (arity power : Nat) (places : OperandPlaces) : Operator :=
  ⟨kind, arity, power, power, power, places⟩

/-- A binary operator that groups to the left: its right operand binds more tightly. -/
def leftBinary (kind : OperatorKind) (power : Nat) : Operator :=
  ⟨kind, 2, power, power + 1, power + 1, ⟨true, true, false, false⟩⟩

def grouping : Operator := level .grouping 1 Precedence.greatest ⟨false, true, false, true⟩

def call (hasArguments : Bool) : Operator :=
  level .call (if hasArguments then 2 else 1) Precedence.member ⟨true, hasArguments, false, true⟩

def member : Operator := level .member 2 Precedence.member ⟨true, true, false, false⟩

def index : Operator := level .index 2 Precedence.member ⟨true, true, false, true⟩

def new : Operator := level .new 1 Precedence.new ⟨false, true, false, false⟩

def conditional : Operator :=
  ⟨.conditional, 3, Precedence.conditional, Precedence.assignment, Precedence.assignment,
    ⟨true, true, true, true⟩⟩

def unary (op : UnaryOp) : Operator := level (.unary op) 1 Precedence.unary ⟨false, true, false, false⟩

def updateBefore (op : UpdateOp) : Operator :=
  level (.updateBefore op) 1 Precedence.unary ⟨false, true, false, false⟩

def updateAfter (op : UpdateOp) : Operator :=
  level (.updateAfter op) 1 Precedence.update ⟨true, false, false, false⟩

def binary (op : BinaryOp) (power : Nat) : Operator := leftBinary (.binary op) power

def logical (op : LogicalOp) (power : Nat) : Operator := leftBinary (.logical op) power

/-- Groups to the right. -/
def assignment (op : Option BinaryOp) : Operator :=
  level (.assignment op) 2 Precedence.assignment ⟨true, true, false, false⟩

def comma : Operator := leftBinary .comma Precedence.comma

/-- The operator a token stands for between two operands. -/
def between? : TokenKind → Option Operator
  | .word .inWord => some (binary .isIn Precedence.relational)
  | .word .instanceofWord => some (binary .instanceOf Precedence.relational)
  | .mark p =>
    match p with
    | .comma => some comma
    | .question => some conditional
    | .pipePipe => some (logical .or Precedence.logicalOr)
    | .ampersandAmpersand => some (logical .and Precedence.logicalAnd)
    | .pipe => some (binary .bitwiseOr Precedence.bitwiseOr)
    | .caret => some (binary .bitwiseXor Precedence.bitwiseXor)
    | .ampersand => some (binary .bitwiseAnd Precedence.bitwiseAnd)
    | .equalEqual => some (binary .equal Precedence.equality)
    | .notEqual => some (binary .notEqual Precedence.equality)
    | .strictEqual => some (binary .strictEqual Precedence.equality)
    | .strictNotEqual => some (binary .strictNotEqual Precedence.equality)
    | .lessThan => some (binary .lessThan Precedence.relational)
    | .lessThanEqual => some (binary .lessThanEqual Precedence.relational)
    | .greaterThan => some (binary .greaterThan Precedence.relational)
    | .greaterThanEqual => some (binary .greaterThanEqual Precedence.relational)
    | .leftShift => some (binary .leftShift Precedence.shift)
    | .rightShift => some (binary .rightShift Precedence.shift)
    | .unsignedRightShift => some (binary .unsignedRightShift Precedence.shift)
    | .plus => some (binary .add Precedence.additive)
    | .minus => some (binary .subtract Precedence.additive)
    | .star => some (binary .multiply Precedence.multiplicative)
    | .slash => some (binary .divide Precedence.multiplicative)
    | .percent => some (binary .modulo Precedence.multiplicative)
    | .equal => some (assignment none)
    | .plusEqual => some (assignment (some .add))
    | .minusEqual => some (assignment (some .subtract))
    | .starEqual => some (assignment (some .multiply))
    | .slashEqual => some (assignment (some .divide))
    | .percentEqual => some (assignment (some .modulo))
    | .leftShiftEqual => some (assignment (some .leftShift))
    | .rightShiftEqual => some (assignment (some .rightShift))
    | .unsignedRightShiftEqual => some (assignment (some .unsignedRightShift))
    | .ampersandEqual => some (assignment (some .bitwiseAnd))
    | .pipeEqual => some (assignment (some .bitwiseOr))
    | .caretEqual => some (assignment (some .bitwiseXor))
    | _ => none
  | _ => none

/-- The operator a token stands for in front of its operand. -/
def before? : TokenKind → Option Operator
  | .word .typeofWord => some (unary .typeof)
  | .word .voidWord => some (unary .void)
  | .word .deleteWord => some (unary .delete)
  | .mark .minus => some (unary .minus)
  | .mark .plus => some (unary .plus)
  | .mark .bang => some (unary .logicalNot)
  | .mark .tilde => some (unary .bitwiseNot)
  | .mark .plusPlus => some (updateBefore .increment)
  | .mark .minusMinus => some (updateBefore .decrement)
  | _ => none

/-- The operator a token stands for behind its operand. -/
def after? : TokenKind → Option Operator
  | .mark .plusPlus => some (updateAfter .increment)
  | .mark .minusMinus => some (updateAfter .decrement)
  | _ => none

end Operator

end ScriptEngine
