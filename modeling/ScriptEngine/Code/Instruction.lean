/-
Instructions of the stack machine and how each changes the height of the
operand stack.
-/

namespace ScriptEngine

inductive Opcode
  | loadConst | loadUndefined | loadNull | loadTrue | loadFalse | pop | dup | dup2 | swap | add
  | sub | mul | div | mod | neg | toNumber | eq | ne | strictEq | strictNe | lt | le | gt | ge
  | not | bitAnd | bitOr | bitXor | bitNot | shl | shr | ushr | loadLocal | storeLocal
  | loadSlot | storeSlot | loadName | loadNameOrUndefined | loadNameWithThis | storeName
  | storeNameStrict | deleteName | getProperty | setProperty | deleteProperty | defineProperty
  | jump | jumpIfFalse | jumpIfTrue | logicalAnd | logicalOr | call | callEval | new | ret
  | closure | newObject | newArray | typeOf | instanceOf | isIn | forInPrepare | forInHasNext
  | forInNext | enterTry | leaveTry | pushCatchScope | pushWithScope | popScope | throwValue
  | loadThis
  deriving Repr, DecidableEq

namespace Opcode

def all : List Opcode := [
  .loadConst, .loadUndefined, .loadNull, .loadTrue, .loadFalse, .pop, .dup, .dup2, .swap, .add,
  .sub, .mul, .div, .mod, .neg, .toNumber, .eq, .ne, .strictEq, .strictNe, .lt, .le, .gt, .ge,
  .not, .bitAnd, .bitOr, .bitXor, .bitNot, .shl, .shr, .ushr, .loadLocal, .storeLocal,
  .loadSlot, .storeSlot, .loadName, .loadNameOrUndefined, .loadNameWithThis, .storeName,
  .storeNameStrict, .deleteName, .getProperty, .setProperty, .deleteProperty, .defineProperty,
  .jump, .jumpIfFalse, .jumpIfTrue, .logicalAnd, .logicalOr, .call, .callEval, .new, .ret,
  .closure, .newObject, .newArray, .typeOf, .instanceOf, .isIn, .forInPrepare, .forInHasNext,
  .forInNext, .enterTry, .leaveTry, .pushCatchScope, .pushWithScope, .popScope, .throwValue,
  .loadThis]

def name : Opcode → String
  | .loadConst => "LoadConst"
  | .loadUndefined => "LoadUndefined"
  | .loadNull => "LoadNull"
  | .loadTrue => "LoadTrue"
  | .loadFalse => "LoadFalse"
  | .pop => "Pop"
  | .dup => "Dup"
  | .dup2 => "Dup2"
  | .swap => "Swap"
  | .add => "Add"
  | .sub => "Sub"
  | .mul => "Mul"
  | .div => "Div"
  | .mod => "Mod"
  | .neg => "Neg"
  | .toNumber => "ToNumber"
  | .eq => "Eq"
  | .ne => "Ne"
  | .strictEq => "StrictEq"
  | .strictNe => "StrictNe"
  | .lt => "Lt"
  | .le => "Le"
  | .gt => "Gt"
  | .ge => "Ge"
  | .not => "Not"
  | .bitAnd => "BitAnd"
  | .bitOr => "BitOr"
  | .bitXor => "BitXor"
  | .bitNot => "BitNot"
  | .shl => "Shl"
  | .shr => "Shr"
  | .ushr => "Ushr"
  | .loadLocal => "LoadLocal"
  | .storeLocal => "StoreLocal"
  | .loadSlot => "LoadSlot"
  | .storeSlot => "StoreSlot"
  | .loadName => "LoadName"
  | .loadNameOrUndefined => "LoadNameOrUndefined"
  | .loadNameWithThis => "LoadNameWithThis"
  | .storeName => "StoreName"
  | .storeNameStrict => "StoreNameStrict"
  | .deleteName => "DeleteName"
  | .getProperty => "GetProperty"
  | .setProperty => "SetProperty"
  | .deleteProperty => "DeleteProperty"
  | .defineProperty => "DefineProperty"
  | .jump => "Jump"
  | .jumpIfFalse => "JumpIfFalse"
  | .jumpIfTrue => "JumpIfTrue"
  | .logicalAnd => "LogicalAnd"
  | .logicalOr => "LogicalOr"
  | .call => "Call"
  | .callEval => "CallEval"
  | .new => "New"
  | .ret => "Return"
  | .closure => "Closure"
  | .newObject => "NewObject"
  | .newArray => "NewArray"
  | .typeOf => "TypeOf"
  | .instanceOf => "InstanceOf"
  | .isIn => "In"
  | .forInPrepare => "ForInPrepare"
  | .forInHasNext => "ForInHasNext"
  | .forInNext => "ForInNext"
  | .enterTry => "EnterTry"
  | .leaveTry => "LeaveTry"
  | .pushCatchScope => "PushCatchScope"
  | .pushWithScope => "PushWithScope"
  | .popScope => "PopScope"
  | .throwValue => "Throw"
  | .loadThis => "LoadThis"

def ofName? (s : String) : Option Opcode := all.find? fun op => op.name == s

/-- The next instruction is never reached by falling through. -/
def leaves : Opcode → Bool
  | .jump | .ret | .throwValue => true
  | _ => false

end Opcode

/-- What an instruction refers to: entries of the pools, temporaries, slots
and positions in the code. -/
inductive Operand
  | constant (index : Nat)
  | temporary (index : Nat)
  | target (position : Nat)
  | count (n : Nat)
  | property (index : Nat)
  | slot (depth index : Nat)
  | function (index : Nat)
  /-- A number of arguments, and the constant that describes the callee. -/
  | call (arguments callee : Nat)
  deriving Repr, DecidableEq

structure Instruction where
  opcode : Opcode
  operand : Option Operand
  deriving Repr, DecidableEq

namespace Instruction

/-- The number of arguments an instruction takes from the stack. -/
def argumentCount (i : Instruction) : Nat :=
  match i.operand with
  | some (.count n) | some (.call n _) => n
  | _ => 0

/-- How much higher the operand stack is when control falls through. -/
def stackEffect (i : Instruction) : Int :=
  match i.opcode with
  | .loadConst | .loadUndefined | .loadNull | .loadTrue | .loadFalse | .dup | .loadLocal
  | .loadSlot | .loadName | .loadNameOrUndefined | .deleteName | .closure | .newObject
  | .newArray | .forInHasNext | .forInNext | .loadThis => 1
  | .dup2 | .loadNameWithThis => 2
  | .swap | .neg | .toNumber | .not | .bitNot | .typeOf | .storeSlot | .storeName
  | .storeNameStrict | .jump | .enterTry | .leaveTry | .popScope => 0
  | .pop | .add | .sub | .mul | .div | .mod | .eq | .ne | .strictEq | .strictNe | .lt | .le | .gt
  | .ge | .bitAnd | .bitOr | .bitXor | .shl | .shr | .ushr | .instanceOf | .isIn | .storeLocal
  | .getProperty | .deleteProperty | .defineProperty | .jumpIfFalse | .jumpIfTrue
  | .logicalAnd | .logicalOr | .ret | .forInPrepare | .pushCatchScope | .pushWithScope
  | .throwValue => -1
  | .setProperty => -2
  | .call | .callEval => -(i.argumentCount + 1 : Int)
  | .new => -(i.argumentCount : Int)

/-- How much higher the operand stack is where the instruction jumps to: a short
circuit keeps the tested value, and a handler starts with the exception. -/
def takenEffect (i : Instruction) : Int :=
  match i.opcode with
  | .logicalAnd | .logicalOr | .jump => 0
  | .enterTry => 1
  | _ => i.stackEffect

end Instruction

end ScriptEngine
