/-
Program trees. Parentheses stay in the tree as groupings, and the arguments
of a call stay the one comma expression that was read.
-/
import ScriptEngine.Source.Span
import ScriptEngine.Number.Layout

namespace ScriptEngine

/-- A name and where it stands. -/
structure Identifier where
  name : String
  span : Span
  deriving Repr, DecidableEq, Inhabited

inductive UnaryOp
  | minus | plus | logicalNot | bitwiseNot | typeof | void | delete
  deriving Repr, DecidableEq

def UnaryOp.name : UnaryOp → String
  | .minus => "Minus"
  | .plus => "Plus"
  | .logicalNot => "LogicalNot"
  | .bitwiseNot => "BitwiseNot"
  | .typeof => "Typeof"
  | .void => "Void"
  | .delete => "Delete"

inductive UpdateOp
  | increment | decrement
  deriving Repr, DecidableEq

def UpdateOp.name : UpdateOp → String
  | .increment => "Increment"
  | .decrement => "Decrement"

inductive BinaryOp
  | add | subtract | multiply | divide | modulo
  | equal | notEqual | strictEqual | strictNotEqual
  | lessThan | lessThanEqual | greaterThan | greaterThanEqual
  | bitwiseAnd | bitwiseOr | bitwiseXor
  | leftShift | rightShift | unsignedRightShift
  | isIn | instanceOf
  deriving Repr, DecidableEq

def BinaryOp.name : BinaryOp → String
  | .add => "Add"
  | .subtract => "Subtract"
  | .multiply => "Multiply"
  | .divide => "Divide"
  | .modulo => "Modulo"
  | .equal => "Equal"
  | .notEqual => "NotEqual"
  | .strictEqual => "StrictEqual"
  | .strictNotEqual => "StrictNotEqual"
  | .lessThan => "LessThan"
  | .lessThanEqual => "LessThanEqual"
  | .greaterThan => "GreaterThan"
  | .greaterThanEqual => "GreaterThanEqual"
  | .bitwiseAnd => "BitwiseAnd"
  | .bitwiseOr => "BitwiseOr"
  | .bitwiseXor => "BitwiseXor"
  | .leftShift => "LeftShift"
  | .rightShift => "RightShift"
  | .unsignedRightShift => "UnsignedRightShift"
  | .isIn => "In"
  | .instanceOf => "InstanceOf"

/-- The operators that may leave their right operand unevaluated. -/
inductive LogicalOp
  | and | or
  deriving Repr, DecidableEq

def LogicalOp.name : LogicalOp → String
  | .and => "And"
  | .or => "Or"

mutual

inductive Expr
  | number (value : Float)
  | string (value : String)
  | boolean (value : Bool)
  | null
  | identifier (id : Identifier)
  | this
  /-- An element is missing where two commas meet. -/
  | array (elements : List (Option Expr))
  | object (properties : List (String × Expr))
  | function (f : FunctionTree)
  | grouping (inner : Expr)
  | unary (op : UnaryOp) (operand : Expr)
  | update (op : UpdateOp) (before : Bool) (target : Expr)
  | binary (op : BinaryOp) (left right : Expr)
  | logical (op : LogicalOp) (left right : Expr)
  /-- With an operator, `target = target op value`. -/
  | assignment (op : Option BinaryOp) (target value : Expr)
  | conditional (test consequent alternate : Expr)
  | sequence (items : List Expr)
  | call (callee : Expr) (arguments : Option Expr)
  | member (object : Expr) (property : Identifier)
  | index (object key : Expr)
  | new (operand : Expr)

structure FunctionTree where
  id : Option Identifier
  params : List Identifier
  body : List Stmt
  span : Span

/-- A statement with the labels in front of it, outermost first. -/
structure Stmt where
  labels : List String
  span : Span
  kind : StmtKind

inductive StmtKind
  | var (declarators : List Declarator)
  | function (f : FunctionTree)
  | expression (e : Expr)
  | block (body : List Stmt)
  | branch (test : Expr) (consequent : Stmt) (alternate : Option Stmt)
  | loop (head : LoopHead) (body : Stmt)
  | switch (discriminant : Expr) (cases : List SwitchCase)
  | returns (value : Option Expr)
  | breaks (label : Option Identifier)
  | continues (label : Option Identifier)
  | throws (value : Expr)
  | attempt (block : List Stmt) (handler : Option CatchClause) (finalizer : Option (List Stmt))
  | scoped (object : Expr) (body : Stmt)
  | empty

structure Declarator where
  id : Identifier
  init : Option Expr

/-- What controls a loop. -/
inductive LoopHead
  | counted (init : Option LoopInit) (test update : Option Expr)
  | whileTest (test : Expr)
  | doWhile (test : Expr)
  | forIn (target : KeyTarget) (object : Expr)

inductive LoopInit
  | declare (declarators : List Declarator)
  | evaluate (e : Expr)

/-- What receives the keys of a for-in loop. -/
inductive KeyTarget
  | declare (declarator : Declarator)
  | assign (target : Expr)

/-- A clause of a switch; the default clause has no test. -/
structure SwitchCase where
  test : Option Expr
  body : List Stmt

structure CatchClause where
  param : Identifier
  body : List Stmt

end

/-- A script or the code given to `eval`. -/
structure Program where
  body : List Stmt

instance : Inhabited Expr := ⟨.null⟩

namespace Expr

/-- The expression inside any number of parentheses. -/
def ungroup : Expr → Expr
  | .grouping e => e.ungroup
  | e => e

/-- A name or a property, possibly in parentheses: what can be assigned to. -/
def isReference (e : Expr) : Bool :=
  match e.ungroup with
  | .identifier _ | .member .. | .index .. => true
  | _ => false

/-- A short text for messages. -/
def describe : Expr → String
  | .grouping e => e.describe
  | .identifier id => id.name
  | .this => "this"
  | .member base property => base.describe ++ "." ++ property.name
  | .index base _ => base.describe ++ "[...]"
  | .call callee _ => callee.describe ++ "(...)"
  | .string value => "\"" ++ value ++ "\""
  | .number value => Number.plain value
  | .function _ => "function"
  | _ => "expression"

/-- A call of the bare name `eval`, possibly in parentheses, runs its code in the caller's scope. -/
def callsEval (callee : Expr) : Bool :=
  match callee.ungroup with
  | .identifier id => id.name == "eval"
  | _ => false

/-- The arguments of a call: the items of a bare comma list, or the one operand. -/
def argumentList : Option Expr → List Expr
  | none => []
  | some (.sequence items) => items
  | some e => [e]

/-- The constructor and the arguments of a `new`. -/
def constructorParts : Expr → Expr × List Expr
  | .call callee arguments => (callee, argumentList arguments)
  | e => (e, [])

end Expr

end ScriptEngine
