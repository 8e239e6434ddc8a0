/-
Expressions to code. The code of an expression leaves its value on top of the
operand stack and changes nothing below it.
-/
import ScriptEngine.Lowering.Basic

namespace ScriptEngine.Lowering

def binaryOpcode : BinaryOp → Opcode
  | .add => .add
  | .subtract => .sub
  | .multiply => .mul
  | .divide => .div
  | .modulo => .mod
  | .equal => .eq
  | .notEqual => .ne
  | .strictEqual => .strictEq
  | .strictNotEqual => .strictNe
  | .lessThan => .lt
  | .lessThanEqual => .le
  | .greaterThan => .gt
  | .greaterThanEqual => .ge
  | .bitwiseAnd => .bitAnd
  | .bitwiseOr => .bitOr
  | .bitwiseXor => .bitXor
  | .leftShift => .shl
  | .rightShift => .shr
  | .unsignedRightShift => .ushr
  | .isIn => .isIn
  | .instanceOf => .instanceOf

/-- What an expression refers to when it is assigned to, called or deleted. -/
inductive Reference
  | variable (name : String)
  /-- The code that pushes the object, and the code that pushes the key. -/
  | property (object key : Lowering Unit)
  | value

/-- The number of arguments of a call, which has sixteen bits. -/
def argumentCount (n : Nat) : Lowering Nat :=
  if n < poolLimit then return n else throw (.limit .arguments)

def lowerTypeof (ctx : Context) (r : Reference) (value : Lowering Unit) : Lowering Unit := do
  match r with
  | .variable name =>
    match ← resolve ctx name with
    | .slot .. => load ctx name
    | .byName => emitWith .loadNameOrUndefined (.property (← stringConstant name))
  | _ => value
  emit .typeOf

def lowerDelete (ctx : Context) (r : Reference) (value : Lowering Unit) : Lowering Unit := do
  match r with
  | .variable name =>
    match ← resolve ctx name with
    | .slot .. => emitKept name
    | .byName => emitWith .deleteName (.property (← stringConstant name))
  | .property object key =>
    object
    key
    emit .deleteProperty
  | .value =>
    value
    emit .pop
    emit .loadTrue

/-- `++` and `--`: the new value is stored; a postponed one leaves the old value. -/
def lowerUpdate (ctx : Context) (op : UpdateOp) (before : Bool) (r : Reference) : Lowering Unit := do
  let step := match op with
    | .increment => Opcode.add
    | .decrement => Opcode.sub
  let one ← numberConstant 1.0
  match r with
  | .variable name =>
    load ctx name
    emit .toNumber
    unless before do emit .dup
    emitWith .loadConst (.constant one)
    emit step
    store ctx name
    unless before do emit .pop
  | .property object key =>
    object
    key
    emit .dup2
    emit .getProperty
    emit .toNumber
    if before then
      emitWith .loadConst (.constant one)
      emit step
      emit .setProperty
    else
      let old ← newTemporary
      emit .dup
      emitWith .storeLocal (.temporary old)
      emitWith .loadConst (.constant one)
      emit step
      emit .setProperty
      emit .pop
      emitWith .loadLocal (.temporary old)
  | .value => throw (.source (.invalidLeftSide .update))

def lowerAssignment (ctx : Context) (op : Option BinaryOp) (r : Reference) (value : Lowering Unit) :
    Lowering Unit := do
  match r with
  | .variable name =>
    match op with
    | some op =>
      load ctx name
      value
      emit (binaryOpcode op)
    | none => value
    store ctx name
  | .property object key =>
    object
    key
    match op with
    | some op =>
      emit .dup2
      emit .getProperty
      value
      emit (binaryOpcode op)
    | none => value
    emit .setProperty
  | .value => throw (.source (.invalidLeftSide .assignment))

/-- Pushes what is called and its receiver. -/
def lowerCallee (ctx : Context) (r : Reference) (value : Lowering Unit) : Lowering Unit := do
  match r with
  | .variable name =>
    match ← resolve ctx name with
    | .slot .. =>
      load ctx name
      emit .loadUndefined
    | .byName => emitWith .loadNameWithThis (.property (← stringConstant name))
  | .property object key =>
    object
    emit .dup
    key
    emit .getProperty
    emit .swap
  | .value =>
    value
    emit .loadUndefined

mutual

def lowerExpr (inner : FunctionLowering) (ctx : Context) : Expr → Lowering Unit
  | .number n => do emitWith .loadConst (.constant (← numberConstant n))
  | .string s => pushString s
  | .boolean b => emit (if b then .loadTrue else .loadFalse)
  | .null => emit .loadNull
  | .identifier id => load ctx id.name
  | .this => emit .loadThis
  | .array elements => do
    unless elements.length < poolLimit do throw (.limit .arrayLiteral)
    emitWith .newArray (.count elements.length)
    lowerElements inner ctx elements 0
  | .object properties => do
    emit .newObject
    lowerProperties inner ctx properties
  | .function f => pushClosure inner ctx f true
  | .grouping e => lowerExpr inner ctx e
  | .unary .typeof e => lowerTypeof ctx (reference inner ctx e) (lowerExpr inner ctx e)
  | .unary .delete e => lowerDelete ctx (reference inner ctx e) (lowerExpr inner ctx e)
  | .unary .void e => do
    lowerExpr inner ctx e
    emit .pop
    emit .loadUndefined
  | .unary .minus e => do
    lowerExpr inner ctx e
    emit .neg
  | .unary .plus e => do
    lowerExpr inner ctx e
    emit .toNumber
  | .unary .logicalNot e => do
    lowerExpr inner ctx e
    emit .not
  | .unary .bitwiseNot e => do
    lowerExpr inner ctx e
    emit .bitNot
  | .update op before e => lowerUpdate ctx op before (reference inner ctx e)
  | .binary op l r => do
    lowerExpr inner ctx l
    lowerExpr inner ctx r
    emit (binaryOpcode op)
  | .logical op l r => do
    let done ← newLabel
    lowerExpr inner ctx l
    emitJump (match op with
      | .and => .logicalAnd
      | .or => .logicalOr) done
    lowerExpr inner ctx r
    mark done
  | .assignment op target value =>
    lowerAssignment ctx op (reference inner ctx target) (lowerExpr inner ctx value)
  | .conditional test a b => do
    let otherwise ← newLabel
    let done ← newLabel
    lowerExpr inner ctx test
    emitJump .jumpIfFalse otherwise
    lowerExpr inner ctx a
    emitJump .jump done
    mark otherwise
    lowerExpr inner ctx b
    mark done
  | .sequence items => lowerSequence inner ctx items
  | .call callee arguments => do
    lowerCallee ctx (reference inner ctx callee) (lowerExpr inner ctx callee)
    let n ← lowerArguments inner ctx arguments
    let description ← stringConstant callee.describe
    emitWith (if callee.callsEval then .callEval else .call) (.call n description)
  | .member object property => do
    lowerExpr inner ctx object
    pushString property.name
    emit .getProperty
  | .index object key => do
    lowerExpr inner ctx object
    lowerExpr inner ctx key
    emit .getProperty
  | .new (.call callee arguments) => do
    lowerExpr inner ctx callee
    let n ← lowerArguments inner ctx arguments
    emitWith .new (.count n)
  | .new e => do
    lowerExpr inner ctx e
    emitWith .new (.count 0)

/-- What an expression in any parentheses refers to. -/
def reference (inner : FunctionLowering) (ctx : Context) : Expr → Reference
  | .grouping e => reference inner ctx e
  | .identifier id => .variable id.name
  | .member object property => .property (lowerExpr inner ctx object) (pushString property.name)
  | .index object key => .property (lowerExpr inner ctx object) (lowerExpr inner ctx key)
  | _ => .value

/-- The items of a comma expression; all values but the last are dropped. -/
def lowerSequence (inner : FunctionLowering) (ctx : Context) : List Expr → Lowering Unit
  | [] => throw (.source .emptySequence)
  | [e] => lowerExpr inner ctx e
  | e :: es => do
    lowerExpr inner ctx e
    emit .pop
    lowerSequence inner ctx es

/-- The elements of an array literal from an index on; holes stay absent. -/
def lowerElements (inner : FunctionLowering) (ctx : Context) : List (Option Expr) → Nat → Lowering Unit
  | [], _ => return
  | none :: es, i => lowerElements inner ctx es (i + 1)
  | some e :: es, i => do
    lowerExpr inner ctx e
    let key ← stringConstant (toString i)
    emitWith .defineProperty (.property key)
    lowerElements inner ctx es (i + 1)

def lowerProperties (inner : FunctionLowering) (ctx : Context) : List (String × Expr) → Lowering Unit
  | [] => return
  | (name, e) :: ps => do
    lowerExpr inner ctx e
    let key ← stringConstant name
    emitWith .defineProperty (.property key)
    lowerProperties inner ctx ps

/-- Pushes the arguments of a call and counts them. -/
def lowerArguments (inner : FunctionLowering) (ctx : Context) : Option Expr → Lowering Nat
  | none => return 0
  | some (.sequence items) => do
    lowerItems inner ctx items
    argumentCount items.length
  | some e => do
    lowerExpr inner ctx e
    return 1

def lowerItems (inner : FunctionLowering) (ctx : Context) : List Expr → Lowering Unit
  | [] => return
  | e :: es => do
    lowerExpr inner ctx e
    lowerItems inner ctx es

end

/-- Assigns the top of the stack to a target and leaves it there. -/
def assignTop (inner : FunctionLowering) (ctx : Context) (target : Expr) : Lowering Unit := do
  match reference inner ctx target with
  | .variable name => store ctx name
  | .property object key =>
    let value ← newTemporary
    emitWith .storeLocal (.temporary value)
    object
    key
    emitWith .loadLocal (.temporary value)
    emit .setProperty
  | .value => throw (.source (.invalidLeftSide .forIn))

end ScriptEngine.Lowering
