/-
What each instruction does to the frame and the realm.
-/
import ScriptEngine.Machine.Realm

namespace ScriptEngine

/-- The running frame in its realm. -/
structure Activity where
  realm : Realm
  frame : Frame

/-- How a run goes on behind an instruction. -/
inductive Next
  | proceed
  /-- The frame ends with a value. -/
  | leave (v : Value)
  /-- Another frame runs first; its value is pushed. -/
  | enter (f : Frame)

/-- An activity in a frame. What it did before it failed stays done. -/
abbrev Exec := EStateM Raised Activity

namespace Exec

/-! ## Parts of a step -/

@[inline] def raise (f : Fault) : Exec α := throw (.fault f)

@[inline] def inRealm (x : Action α) : Exec α := fun ⟨realm, frame⟩ =>
  match x realm with
  | .ok a realm => .ok a ⟨realm, frame⟩
  | .error e realm => .error e ⟨realm, frame⟩

@[inline] def readStore (f : Store → α) : Exec α := fun a => .ok (f a.realm.store) a

@[inline] def withStore (f : Store → α × Store) : Exec α := inRealm (Realm.withStore f)

@[inline] def readFrame (f : Frame → α) : Exec α := fun a => .ok (f a.frame) a

@[inline] def modifyFrame (f : Frame → Frame) : Exec Unit := fun ⟨realm, frame⟩ => .ok () ⟨realm, f frame⟩

/-- Takes operands off the stack, where they have to be. -/
@[inline] def takeOff (f : Frame → Option α × Frame) : Exec α := fun ⟨realm, frame⟩ =>
  match f frame with
  | (some a, frame) => .ok a ⟨realm, frame⟩
  | (none, frame) => .error (.fault (.internal .stackUnderflow)) ⟨realm, frame⟩

@[inline] def push (v : Value) : Exec Unit := modifyFrame fun f => f.push v

@[inline] def pop : Exec Value := takeOff Frame.pop

@[inline] def peek : Exec Value := takeOff fun f => (f.stack.head?, f)

/-- The topmost two operands in the order they were pushed. -/
@[inline] def pop2 : Exec (Value × Value) := do
  let b ← pop
  let a ← pop
  return (a, b)

@[inline] def popMany (n : Nat) : Exec (List Value) := takeOff fun f => f.popMany n

@[inline] def jumpTo (target : Nat) : Exec Unit := modifyFrame fun f => { f with position := target }

@[inline] def text (v : Value) : Exec String := readStore fun s => s.text v

@[inline] def pushBoolean (b : Bool) : Exec Next := do
  push (.boolean b)
  return .proceed

@[inline] def pushNumber (n : Float) : Exec Next := do
  push (.number n)
  return .proceed

/-! ## Operands -/

@[inline] def badOperand (op : Opcode) : Exec α := raise (.internal (.badOperand op))

@[inline] def constantOperand (i : Instruction) : Exec Nat :=
  match i.operand with
  | some (.constant index) => return index
  | _ => badOperand i.opcode

@[inline] def temporaryOperand (i : Instruction) : Exec Nat :=
  match i.operand with
  | some (.temporary index) => return index
  | _ => badOperand i.opcode

@[inline] def targetOperand (i : Instruction) : Exec Nat :=
  match i.operand with
  | some (.target position) => return position
  | _ => badOperand i.opcode

@[inline] def countOperand (i : Instruction) : Exec Nat :=
  match i.operand with
  | some (.count n) => return n
  | _ => badOperand i.opcode

@[inline] def slotOperand (i : Instruction) : Exec (Nat × Nat) :=
  match i.operand with
  | some (.slot depth index) => return (depth, index)
  | _ => badOperand i.opcode

/-- The name in the pool of constants. -/
def nameAt (op : Opcode) (index : Nat) : Exec String := do
  match ← readFrame fun f => f.code.constants[index]? with
  | some (.string name) => return name
  | _ => badOperand op

def nameOperand (i : Instruction) : Exec String :=
  match i.operand with
  | some (.property index) => nameAt i.opcode index
  | _ => badOperand i.opcode

/-! ## Operators -/

/-- The sum of two values: texts are joined as soon as one operand is not plain data. -/
def add (s : Store) (a b : Value) : Value :=
  match a, b with
  | .number x, .number y => .number (x + y)
  | _, _ =>
    if joins a || joins b then .string (s.text a ++ s.text b)
    else .number (s.toNumber a + s.toNumber b)
where
  /-- Adding the value joins texts. -/
  joins : Value → Bool
    | .string _ | .object _ | .function _ => true
    | _ => false

/-- An operator on two values. -/
@[inline] def operate (f : Store → Value → Value → Value) : Exec Next := do
  let (a, b) ← pop2
  push (← readStore fun s => f s a b)
  return .proceed

@[inline] def numeric (f : Float → Float → Float) : Exec Next :=
  operate fun s a b => .number (f (s.toNumber a) (s.toNumber b))

@[inline] def relational (test : Ordering → Bool) : Exec Next :=
  operate fun s a b => .boolean (((s.compare a b).map test).getD false)

/-- An operator on one value. -/
@[inline] def transform (f : Store → Value → Value) : Exec Next := do
  let v ← pop
  push (← readStore fun s => f s v)
  return .proceed

/-! ## Variables -/

/-- The record some links up the chain. -/
@[inline] def recordAt (depth : Nat) : Exec (Option RecordRef) := readFrame fun f => f.scope[depth]?

def loadSlot (depth index : Nat) : Exec Next := do
  let record ← recordAt depth
  match ← readStore fun s => record.bind fun r => s.slot? r index with
  | some v =>
    push v
    return .proceed
  | none => raise (.internal (.noSlot index depth))

def storeSlot (depth index : Nat) : Exec Next := do
  let v ← peek
  match ← recordAt depth with
  | some r =>
    if ← withStore fun s => s.setSlot r index v then return .proceed
    else raise (.internal (.noSlot index depth))
  | none => raise (.internal (.noSlot index depth))

def lookup (name : String) : Exec (Option (Value × Value)) := do
  let scope ← readFrame Frame.scope
  readStore fun s => s.lookup scope name

def loadName (name : String) : Exec Next := do
  match ← lookup name with
  | some (v, _) =>
    push v
    return .proceed
  | none => raise (.unbound name)

def loadNameOrUndefined (name : String) : Exec Next := do
  match ← lookup name with
  | some (v, _) => push v
  | none => push .undefined
  return .proceed

def loadNameWithReceiver (name : String) : Exec Next := do
  match ← lookup name with
  | some (v, receiver) =>
    push v
    push receiver
    return .proceed
  | none => raise (.unbound name)

/-- Assigns the top of the stack to a name. What a name that is bound nowhere leads to
depends on the mode. -/
def storeName (name : String) (strict : Bool) : Exec Next := do
  let v ← peek
  let scope ← readFrame Frame.scope
  if ← withStore fun s => s.assign scope name v then return .proceed
  else if strict then raise (.unbound name)
  else
    withStore fun s => ((), s.assignGlobal scope name v)
    return .proceed

def deleteName (name : String) : Exec Next := do
  let scope ← readFrame Frame.scope
  pushBoolean (← withStore fun s => s.deleteBinding name scope)

/-! ## Properties -/

def getProperty : Exec Next := do
  let (base, key) ← pop2
  let key ← text key
  if base.isNullish then raise (.type (.readProperty key (← text base)))
  else
    push (← readStore fun s => s.property base key)
    return .proceed

/-- Values that are not objects ignore writes. -/
def setProperty : Exec Next := do
  let v ← pop
  let (base, key) ← pop2
  let key ← text key
  match base with
  | .object r => withStore fun s => ((), s.setProperty r key v)
  | .undefined | .null => raise (.type (.setProperty key (← text base)))
  | _ => pure ()
  push v
  return .proceed

def deleteProperty : Exec Next := do
  let (base, key) ← pop2
  let key ← text key
  match base with
  | .object r => pushBoolean (← withStore fun s => s.deleteProperty r key)
  | .undefined | .null => raise (.type (.deleteProperty key (← text base)))
  | _ => pushBoolean true

def defineProperty (key : String) : Exec Next := do
  let v ← pop
  match ← peek with
  | .object r => withStore fun s => ((), s.setProperty r key v)
  | _ => pure ()
  return .proceed

def newObject (o : Object) : Exec Next := do
  push (.object (← withStore fun s => s.addObject o))
  return .proceed

def isInstance : Exec Next := do
  let (v, maker) ← pop2
  match maker with
  | .function f =>
    match v with
    | .object r => pushBoolean (← readStore fun s => s.madeBy r f)
    | _ => pushBoolean false
  | _ => raise (.type .instanceOf)

def hasProperty : Exec Next := do
  let (key, base) ← pop2
  let key ← text key
  match base with
  | .object r => pushBoolean (← readStore fun s => (s.object r).has key)
  | _ => raise (.type (.inOperator key (← text base)))

/-! ## Control -/

/-- Jumps when the operand converts to a truth value. -/
def jumpWhen (truth : Bool) (target : Nat) : Exec Next := do
  let v ← pop
  if v.toBoolean == truth then jumpTo target
  return .proceed

/-- A short circuit jumps and keeps its value, or goes on without it. -/
def shortCircuit (truth : Bool) (target : Nat) : Exec Next := do
  let v ← peek
  if v.toBoolean == truth then jumpTo target
  else
    let _ ← pop
  return .proceed

/-- Goes on with the value of a call, or runs its frame first. -/
def continueWith : Begun → Exec Next
  | .value v => do
    push v
    return .proceed
  | .frame f => return .enter f

def isEval (s : Store) : Value → Bool
  | .function f =>
    match s.callable f with
    | .builtin .eval => true
    | _ => false
  | _ => false

/-- Calls a function. `eval` called by its name runs code in the scope of the caller. -/
def call (op : Opcode) (count description : Nat) : Exec Next := do
  let args ← popMany count
  let (callee, receiver) ← pop2
  if op == .callEval && (← readStore fun s => isEval s callee) then
    match args with
    | .string source :: _ =>
      let frame ← readFrame id
      return .enter (← inRealm (Realm.evalText source frame.scope frame.receiver frame.code.strict))
    | v :: _ => continueWith (.value v)
    | [] => continueWith (.value .undefined)
  else
    let description ← nameAt op description
    continueWith (← inRealm (Realm.call callee receiver args description))

def construct (count : Nat) : Exec Next := do
  let args ← popMany count
  let target ← pop
  continueWith (← inRealm (Realm.construct target args))

/-- Makes a closure. A function that knows its own name closes over a record with it. -/
def closure (code : CodeUnit) : Exec Next := do
  let scope ← readFrame Frame.scope
  if code.bindsOwnName then
    let own ← withStore fun s => s.addRecord (Record.slots #[code.name.getD ""])
    let f ← withStore fun s => s.addCallable (.closure code (own :: scope))
    let _ ← withStore fun s => s.setSlot own 0 (.function f)
    push (.function f)
  else
    push (.function (← withStore fun s => s.addCallable (.closure code scope)))
  return .proceed

/-! ## Loops over keys, exceptions and scopes -/

def prepareKeys (loop : Nat) : Exec Next := do
  let v ← pop
  let keys ← readStore fun s => s.loopKeys v
  modifyFrame fun f => f.setKeys loop keys
  return .proceed

def hasKey (loop : Nat) : Exec Next := do
  pushBoolean (← readFrame fun f => !(f.keysOf loop).isEmpty)

def nextKey (loop : Nat) : Exec Next := do
  match ← readFrame fun f => f.keysOf loop with
  | key :: rest =>
    modifyFrame fun f => (f.setKeys loop rest).push (.string key)
  | [] => push .undefined
  return .proceed

def enterTry (target : Nat) : Exec Next := do
  modifyFrame fun f => { f with handlers := ⟨target, f.stack.length, f.scope⟩ :: f.handlers }
  return .proceed

def leaveTry : Exec Next := do
  modifyFrame fun f => { f with handlers := f.handlers.tail }
  return .proceed

def pushScope (record : Record) : Exec Next := do
  let r ← withStore fun s => s.addRecord record
  modifyFrame fun f => { f with scope := r :: f.scope }
  return .proceed

def pushWithScope : Exec Next := do
  match ← pop with
  | .object r => pushScope (.object r)
  | v => raise (.type (.withObject (← text v)))

def popScope : Exec Next := do
  match ← readFrame Frame.scope with
  | _ :: r :: outer =>
    modifyFrame fun f => { f with scope := r :: outer }
    return .proceed
  | _ => raise (.internal .outermostScope)

end Exec

open Exec in
/-- One instruction; the position is already behind it. -/
def Instruction.exec (i : Instruction) : Exec Next := do
  match i.opcode with
  | .loadConst =>
    let index ← constantOperand i
    match ← readFrame fun f => f.code.constants[index]? with
    | some v =>
      push v
      return .proceed
    | none => raise (.internal (.constantRange index))
  | .loadUndefined =>
    push .undefined
    return .proceed
  | .loadNull =>
    push .null
    return .proceed
  | .loadTrue => pushBoolean true
  | .loadFalse => pushBoolean false
  | .pop =>
    let _ ← pop
    return .proceed
  | .dup =>
    push (← peek)
    return .proceed
  | .dup2 =>
    let (a, b) ← pop2
    push a
    push b
    push a
    push b
    return .proceed
  | .swap =>
    let (a, b) ← pop2
    push b
    push a
    return .proceed
  | .add => operate add
  | .sub => numeric (· - ·)
  | .mul => numeric (· * ·)
  | .div => numeric (· / ·)
  | .mod => numeric Number.remainder
  | .neg => transform fun s v => .number (-(s.toNumber v))
  | .toNumber => transform fun s v => .number (s.toNumber v)
  | .eq => operate fun s a b => .boolean (s.looseEquals a b)
  | .ne => operate fun s a b => .boolean !(s.looseEquals a b)
  | .strictEq => operate fun _ a b => .boolean (a.strictEquals b)
  | .strictNe => operate fun _ a b => .boolean !(a.strictEquals b)
  | .lt => relational (· == .lt)
  | .le => relational (· != .gt)
  | .gt => relational (· == .gt)
  | .ge => relational (· != .lt)
  | .not => transform fun _ v => .boolean !v.toBoolean
  | .bitAnd => numeric Number.bitAnd
  | .bitOr => numeric Number.bitOr
  | .bitXor => numeric Number.bitXor
  | .bitNot => transform fun s v => .number (Number.bitNot (s.toNumber v))
  | .shl => numeric Number.shiftLeft
  | .shr => numeric Number.shiftRight
  | .ushr => numeric Number.shiftRightUnsigned
  | .loadLocal =>
    let index ← temporaryOperand i
    push (← readFrame fun f => f.temporary index)
    return .proceed
  | .storeLocal =>
    let index ← temporaryOperand i
    let v ← pop
    modifyFrame fun f => f.setTemporary index v
    return .proceed
  | .loadSlot =>
    let (depth, index) ← slotOperand i
    loadSlot depth index
  | .storeSlot =>
    let (depth, index) ← slotOperand i
    storeSlot depth index
  | .loadName => loadName (← nameOperand i)
  | .loadNameOrUndefined => loadNameOrUndefined (← nameOperand i)
  | .loadNameWithThis => loadNameWithReceiver (← nameOperand i)
  | .storeName => storeName (← nameOperand i) false
  | .storeNameStrict => storeName (← nameOperand i) true
  | .deleteName => deleteName (← nameOperand i)
  | .getProperty => getProperty
  | .setProperty => setProperty
  | .deleteProperty => deleteProperty
  | .defineProperty => defineProperty (← nameOperand i)
  | .jump =>
    jumpTo (← targetOperand i)
    return .proceed
  | .jumpIfFalse => jumpWhen false (← targetOperand i)
  | .jumpIfTrue => jumpWhen true (← targetOperand i)
  | .logicalAnd => shortCircuit false (← targetOperand i)
  | .logicalOr => shortCircuit true (← targetOperand i)
  | .call | .callEval =>
    match i.operand with
    | some (.call count description) => call i.opcode count description
    | _ => badOperand i.opcode
  | .new => construct (← countOperand i)
  | .ret => return .leave (← pop)
  | .closure =>
    match i.operand with
    | some (.function index) =>
      match ← readFrame fun f => f.code.functions[index]? with
      | some code => closure code
      | none => raise (.internal (.functionRange index))
    | _ => badOperand i.opcode
  | .newObject => newObject .empty
  | .newArray => newObject (.array (← countOperand i))
  | .typeOf => transform fun _ v => .string v.typeOf
  | .instanceOf => isInstance
  | .isIn => hasProperty
  | .forInPrepare => prepareKeys (← temporaryOperand i)
  | .forInHasNext => hasKey (← temporaryOperand i)
  | .forInNext => nextKey (← temporaryOperand i)
  | .enterTry => enterTry (← targetOperand i)
  | .leaveTry => leaveTry
  | .pushCatchScope =>
    let name ← nameOperand i
    let exception ← pop
    pushScope (.declarative #[name] #[exception])
  | .pushWithScope => pushWithScope
  | .popScope => popScope
  | .throwValue => throw (.thrown (← pop))
  | .loadThis =>
    push (← readFrame Frame.receiver)
    return .proceed

end ScriptEngine
