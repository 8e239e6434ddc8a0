/-
An operator waiting for its operands. `finish` succeeds when all operands and
the closing token are there and the operands are of the right form.
-/
import ScriptEngine.Tree.SyntaxFault

namespace ScriptEngine

/-- An operand that must be assignable. -/
def requireReference (e : Expr) (use : TargetUse) : Except SyntaxFault Unit :=
  if e.isReference then .ok () else .error (.invalidTarget use)

/-- The tree an operator makes of its operands. Only a bare list on the left of
a comma grows; a list in parentheses is one item. -/
def Operator.build (op : Operator) (operands : List Expr) : Except SyntaxFault Expr :=
  match op.kind, operands with
  | .grouping, [e] => .ok (.grouping e)
  | .call, [callee] => .ok (.call callee none)
  | .call, [callee, arguments] => .ok (.call callee (some arguments))
  | .member, [object, .identifier property] => .ok (.member object property)
  | .member, [_, e] => .error (.expectedProperty e)
  | .index, [object, key] => .ok (.index object key)
  | .new, [operand] => .ok (.new operand)
  | .assignment o, [target, value] => do
    requireReference target .assignment
    .ok (.assignment o target value)
  | .conditional, [test, consequent, alternate] => .ok (.conditional test consequent alternate)
  | .comma, [.sequence items, right] => .ok (.sequence (items ++ [right]))
  | .comma, [left, right] => .ok (.sequence [left, right])
  | .unary o, [operand] => .ok (.unary o operand)
  | .updateBefore o, [target] => do
    requireReference target .update
    .ok (.update o true target)
  | .updateAfter o, [target] => do
    requireReference target .update
    .ok (.update o false target)
  | .binary o, [left, right] => .ok (.binary o left right)
  | .logical o, [left, right] => .ok (.logical o left right)
  | _, _ => .error .outOfOperands

structure Pending where
  operator : Operator
  operands : List Expr
  /-- The closing token was seen, or the token between the last two operands. -/
  secondToken : Bool

namespace Pending

def start (op : Operator) : Pending := ⟨op, [], false⟩

def filled (p : Pending) : Nat := p.operands.length

/-- Another operand may follow. The third operand of a conditional waits for its separator. -/
def accepting (p : Pending) : Bool :=
  p.filled < p.operator.arity &&
    (!(p.operator.places.secondRight && 2 ≤ p.filled) || p.secondToken)

/-- A step of filling an operator; one that fails hands the operator back too. -/
abbrev Filling := EStateM SyntaxFault Pending

def push (e : Expr) : Filling Unit := do
  let p ← get
  if p.accepting then set { p with operands := p.operands ++ [e] }
  else throw (.unexpectedOperand p.operator.kind)

/-- Takes the last operand back. -/
def pop : Filling (Option Expr) :=
  modifyGet fun p => (p.operands.getLast?, { p with operands := p.operands.dropLast })

def seeSecondToken : Filling Unit := modify fun p => { p with secondToken := true }

/-- An operand without its parentheses. -/
def operand? (p : Pending) (i : Nat) : Option Expr := (p.operands[i]?).map Expr.ungroup

/-- An operand as it was given. -/
def rawOperand? (p : Pending) (i : Nat) : Option Expr := p.operands[i]?

/-- The binding power of what is built: a `new` with an argument list binds like
parentheses, so that what follows applies to the new object. -/
def effectivePrecedence (p : Pending) : Nat :=
  match p.operator.kind, p.operands with
  | .new, [.call ..] => Precedence.greatest
  | _, _ => p.operator.primary

def checkValid (p : Pending) : Except SyntaxFault Unit :=
  if p.filled ≠ p.operator.arity then
    .error (.operandCount p.operator.kind p.operator.arity p.filled)
  else if p.operator.places.closing && !p.secondToken then
    .error (.missingClosing p.operator.kind)
  else .ok ()

def finish (p : Pending) : Except SyntaxFault Expr := do
  p.checkValid
  p.operator.build p.operands

end Pending

end ScriptEngine
