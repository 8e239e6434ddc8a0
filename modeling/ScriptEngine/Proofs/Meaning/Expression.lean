/-
The values of expressions. Evaluation follows the tree from left to right.
-/
import ScriptEngine.Proofs.Meaning.World

namespace ScriptEngine.Meaning

open Realm

/-- What an expression refers to when it is assigned to, called or deleted. -/
inductive Target
  | name (name : String)
  | property (object key : Eval Value)
  | value

def readName (act : Activation) (name : String) : Eval Value :=
  Prod.fst <$> perform (inspect (readVariable act.chain name))

def writeName (act : Activation) (name : String) (v : Value) : Eval Unit :=
  perform (writeVariable act.chain act.strict name v)

def getProperty (base key : Value) : Eval Value := perform (inspect (readProperty base key))

def applyBinary (op : BinaryOp) (a b : Value) : Eval Value := perform (inspect fun s => binary op s a b)

def transform (f : Store → Value → Value) (v : Value) : Eval Value := perform (readStore fun s => f s v)

def evalTypeof (act : Activation) (t : Target) (value : Eval Value) : Eval Value := do
  match t with
  | .name name => return .string (← perform (readStore (peekVariable act.chain name))).typeOf
  | _ => return .string (← value).typeOf

def evalDelete (act : Activation) (t : Target) (value : Eval Value) : Eval Value := do
  match t with
  | .name name => return .boolean (← perform (deleteVariable act.chain name))
  | .property object key =>
    let base ← object
    let key ← key
    return .boolean (← perform (deleteProperty base key))
  | .value =>
    let _ ← value
    return .boolean true

def stepOperator : UpdateOp → BinaryOp
  | .increment => .add
  | .decrement => .subtract

/-- `++` and `--`: the new value is stored; a postponed one stands for the old value. -/
def evalUpdate (act : Activation) (op : UpdateOp) (before : Bool) (t : Target) : Eval Value := do
  match t with
  | .name name =>
    let old ← transform asNumber (← readName act name)
    let new ← applyBinary (stepOperator op) old (literal 1.0)
    writeName act name new
    return if before then new else old
  | .property object key =>
    let base ← object
    let key ← key
    let old ← transform asNumber (← getProperty base key)
    let new ← applyBinary (stepOperator op) old (literal 1.0)
    perform (writeProperty base key new)
    return if before then new else old
  | .value => return .undefined

/-- With an operator, the old value and the new one are combined first. -/
def combine (op : Option BinaryOp) (old : Eval Value) (value : Eval Value) : Eval Value := do
  match op with
  | some op =>
    let a ← old
    let b ← value
    applyBinary op a b
  | none => value

def evalAssignment (act : Activation) (op : Option BinaryOp) (t : Target) (value : Eval Value) : Eval Value := do
  match t with
  | .name name =>
    let v ← combine op (readName act name) value
    writeName act name v
    return v
  | .property object key =>
    let base ← object
    let key ← key
    let v ← combine op (getProperty base key) value
    perform (writeProperty base key v)
    return v
  | .value => return .undefined

def evalCallee (act : Activation) (t : Target) (value : Eval Value) : Eval (Value × Value) := do
  match t with
  | .name name => perform (inspect (readVariable act.chain name))
  | .property object key =>
    let base ← object
    let callee ← getProperty base (← key)
    return (callee, base)
  | .value => return (← value, .undefined)

mutual

def evalExpr (h : Host) (act : Activation) : Expr → Eval Value
  | .number n => return literal n
  | .string s => return .string s
  | .boolean b => return .boolean b
  | .null => return .null
  | .identifier id => readName act id.name
  | .this => return act.receiver
  | .array elements => do
    let made ← perform (makeObject (.array elements.length))
    evalElements h act made elements 0
    return .object made
  | .object properties => do
    let made ← perform (makeObject .empty)
    evalProperties h act made properties
    return .object made
  | .function f => makeFunction ⟨f, true, act.strict⟩ act.chain
  | .grouping e => evalExpr h act e
  | .unary .typeof e => evalTypeof act (target h act e) (evalExpr h act e)
  | .unary .delete e => evalDelete act (target h act e) (evalExpr h act e)
  | .unary .void e => do
    let _ ← evalExpr h act e
    return .undefined
  | .unary .minus e => do transform negate (← evalExpr h act e)
  | .unary .plus e => do transform asNumber (← evalExpr h act e)
  | .unary .logicalNot e => do return .boolean !(← evalExpr h act e).toBoolean
  | .unary .bitwiseNot e => do transform complement (← evalExpr h act e)
  | .update op before e => evalUpdate act op before (target h act e)
  | .binary op l r => do
    let a ← evalExpr h act l
    let b ← evalExpr h act r
    applyBinary op a b
  | .logical op l r => do
    let a ← evalExpr h act l
    match op with
    | .and => if a.toBoolean then evalExpr h act r else return a
    | .or => if a.toBoolean then return a else evalExpr h act r
  | .assignment op t value => evalAssignment act op (target h act t) (evalExpr h act value)
  | .conditional test a b => do
    if (← evalExpr h act test).toBoolean then evalExpr h act a else evalExpr h act b
  | .sequence items => evalSequence h act items
  | .call callee arguments => do
    let (f, receiver) ← evalCallee act (target h act callee) (evalExpr h act callee)
    let args ← evalArguments h act arguments
    if callee.callsEval then callEval h act f receiver args callee.describe
    else call h f receiver args callee.describe
  | .member object property => do getProperty (← evalExpr h act object) (.string property.name)
  | .index object key => do
    let base ← evalExpr h act object
    getProperty base (← evalExpr h act key)
  | .new (.call callee arguments) => do
    let f ← evalExpr h act callee
    construct h f (← evalArguments h act arguments)
  | .new e => do construct h (← evalExpr h act e) []

def target (h : Host) (act : Activation) : Expr → Target
  | .grouping e => target h act e
  | .identifier id => .name id.name
  | .member object property => .property (evalExpr h act object) (return .string property.name)
  | .index object key => .property (evalExpr h act object) (evalExpr h act key)
  | _ => .value

def evalSequence (h : Host) (act : Activation) : List Expr → Eval Value
  | [] => return .undefined
  | [e] => evalExpr h act e
  | e :: es => do
    let _ ← evalExpr h act e
    evalSequence h act es

/-- Gives an array its elements from an index on; holes stay absent. -/
def evalElements (h : Host) (act : Activation) (made : ObjectRef) : List (Option Expr) → Nat → Eval Unit
  | [], _ => return
  | none :: es, i => evalElements h act made es (i + 1)
  | some e :: es, i => do
    let v ← evalExpr h act e
    perform (defineProperty made (toString i) v)
    evalElements h act made es (i + 1)

def evalProperties (h : Host) (act : Activation) (made : ObjectRef) : List (String × Expr) → Eval Unit
  | [] => return
  | (name, e) :: ps => do
    let v ← evalExpr h act e
    perform (defineProperty made name v)
    evalProperties h act made ps

def evalArguments (h : Host) (act : Activation) : Option Expr → Eval (List Value)
  | none => return []
  | some (.sequence items) => evalItems h act items
  | some e => do return [← evalExpr h act e]

def evalItems (h : Host) (act : Activation) : List Expr → Eval (List Value)
  | [] => return []
  | e :: es => do
    let v ← evalExpr h act e
    return v :: (← evalItems h act es)

end

def assignValue (h : Host) (act : Activation) (e : Expr) (v : Value) : Eval Unit := do
  match target h act e with
  | .name name => writeName act name v
  | .property object key =>
    let base ← object
    perform (writeProperty base (← key) v)
  | .value => return

end ScriptEngine.Meaning
