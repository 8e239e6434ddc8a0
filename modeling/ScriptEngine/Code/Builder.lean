/-
Building the code of a unit: instructions are appended, constants and
functions go into pools of at most 65536 entries, and jumps refer to labels
that are replaced by positions at the end. The builder keeps track of the
height of the operand stack along the way.
-/
import ScriptEngine.Code.CodeUnit
import ScriptEngine.Fault

namespace ScriptEngine

/-- The number of a label. -/
structure Label where
  index : Nat
  deriving Repr, DecidableEq

/-- Where a label stands, and the height of the stack there, once known. -/
structure LabelState where
  position : Option Nat
  depth : Option Int
  deriving Repr, DecidableEq, Inhabited

/-- The most entries of a pool. -/
def poolLimit : Nat := 65536

/-- The most temporaries of a unit. -/
def temporaryLimit : Nat := 65535

structure Builder where
  instructions : Array Instruction
  constants : Array Value
  functions : Array CodeUnit
  labels : Array LabelState
  /-- Jumps whose label is still to be replaced. -/
  fixups : Array (Nat × Label)
  depth : Int
  temporaries : Nat
  strings : Std.TreeMap String Nat
  numbers : Std.TreeMap UInt64 Nat
  /-- The name that each instruction was written for whose variable has a slot, by its position. -/
  slotNames : Std.TreeMap Nat String

/-- A step of building that takes a place in a pool, or fails when there is none left. -/
abbrev Building := EStateM Fault Builder

namespace Builder

def empty : Builder := ⟨#[], #[], #[], #[], #[], 0, 0, ∅, ∅, ∅⟩

def size (b : Builder) : Nat := b.instructions.size

def emit (b : Builder) (i : Instruction) : Builder :=
  { b with instructions := b.instructions.push i, depth := b.depth + i.stackEffect }

/-- Emits an instruction for a name that stands for a slot. -/
def emitSlot (b : Builder) (name : String) (i : Instruction) : Builder :=
  { b with slotNames := b.slotNames.insert b.size name }.emit i

def newLabel (b : Builder) : Label × Builder :=
  (⟨b.labels.size⟩, { b with labels := b.labels.push ⟨none, none⟩ })

/-- Emits a jump. The first jump to a label fixes the height of the stack there. -/
def emitJump (b : Builder) (opcode : Opcode) (label : Label) : Builder :=
  let i : Instruction := ⟨opcode, some (.target label.index)⟩
  let taken := b.depth + i.takenEffect
  let b := { b with labels := b.labels.modify label.index fun s => { s with depth := s.depth.orElse fun _ => some taken } }
  let b := { b with fixups := b.fixups.push (b.instructions.size, label) }
  b.emit i

/-- Puts a label at the end of the code. Behind an instruction that never falls
through, the height of the stack is the one the jumps to the label bring. -/
def mark (b : Builder) (label : Label) : Builder :=
  let unreachable := (b.instructions.back?.map fun i => i.opcode.leaves).getD false
  let known := (b.labels[label.index]?).bind LabelState.depth
  let depth := if unreachable then known.getD b.depth else b.depth
  let position := b.instructions.size
  { b with
    labels := b.labels.modify label.index fun _ => ⟨some position, some (known.getD b.depth)⟩
    depth }

/-! ## Pools -/

def newTemporary : Building Nat := fun b =>
  if b.temporaries < temporaryLimit then
    .ok b.temporaries { b with temporaries := b.temporaries + 1 }
  else .error (.limit .locals) b

def addConstant (v : Value) : Building Nat := fun b =>
  if b.constants.size < poolLimit then
    .ok b.constants.size { b with constants := b.constants.push v }
  else .error (.limit .constants) b

/-- The index of the number with a bit pattern. Only equal patterns share one entry, so the
two zeros have entries of their own, and so has every pattern of NaN. -/
def numberConstant (bits : UInt64) : Building Nat := fun b =>
  match b.numbers[bits]? with
  | some index => .ok index b
  | none =>
    match addConstant (.number (Float.ofBits bits)) b with
    | .ok index b => .ok index { b with numbers := b.numbers.insert bits index }
    | .error e b => .error e b

/-- The index of a string. Equal strings share one entry. -/
def stringConstant (s : String) : Building Nat := fun b =>
  match b.strings[s]? with
  | some index => .ok index b
  | none =>
    match addConstant (.string s) b with
    | .ok index b => .ok index { b with strings := b.strings.insert s index }
    | .error e b => .error e b

def addFunction (u : CodeUnit) : Building Nat := fun b =>
  if b.functions.size < poolLimit then
    .ok b.functions.size { b with functions := b.functions.push u }
  else .error (.limit .functions) b

/-! ## Finished code -/

/-- The instructions with a jump's label replaced by its position. -/
def resolve (labels : Array LabelState) (code : Array Instruction) (fixup : Nat × Label) :
    Except Fault (Array Instruction) :=
  match (labels[fixup.2.index]?).bind LabelState.position with
  | some position =>
    .ok (code.modify fixup.1 fun i => { i with operand := some (.target position) })
  | none => .error (.internal (.labelNeverMarked fixup.2.index))

/-- The finished code: all labels are replaced. -/
def finish (b : Builder) : Except Fault (Array Instruction) :=
  b.fixups.foldlM (resolve b.labels) b.instructions

end Builder

end ScriptEngine
