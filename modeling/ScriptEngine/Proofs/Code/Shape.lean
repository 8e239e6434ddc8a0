/-
What is open at each instruction of a unit. A shape says how many operands
stand on the stack and which scopes and exception regions are open; a unit has a
shape at each instruction when every way from one instruction to another agrees
with the shapes (`CodeUnit.Shaped`). Rules say what else is asked of the
instructions. Pieces of code are put together by `Piece.seq`, and jumps to a label
inside a piece are settled by `Piece.close`.
-/
import ScriptEngine.Proofs.Code.Layout

namespace ScriptEngine

/-! ## Shapes -/

/-- A construct that is open, a scope or an exception region, with the position of the instruction
that opened it. -/
inductive Open
  | scope (site : Nat)
  | attempt (site : Nat)
  deriving DecidableEq

namespace Open

def isScope : Open → Bool
  | .scope _ => true
  | .attempt _ => false

def site : Open → Nat
  | .scope p | .attempt p => p

end Open

/-- The operands on the stack, and the open constructs, innermost first. -/
structure Shape where
  height : Nat
  opened : List Open

namespace Shape

def scopes (S : Shape) : Nat := S.opened.countP Open.isScope

def regions (S : Shape) : Nat := S.opened.countP fun o => !o.isScope

end Shape

/-! ## Instructions -/

inductive Transfer
  /-- Behind the instruction. -/
  | falls
  | jumps (target : Nat)
  /-- Behind it or at the target, in either case without the operand. -/
  | tests (target : Nat)
  /-- Behind it without the operand or at the target with it. -/
  | shortcuts (target : Nat)
  | opensRegion (handler : Nat)
  | closesRegion
  | pushesScope
  | popsScope
  /-- Nowhere in this frame, unless an exception is handled. -/
  | ends
  deriving DecidableEq

namespace Instruction

def transfer : Instruction → Transfer
  | ⟨.jump, some (.target t)⟩ => .jumps t
  | ⟨.jumpIfFalse, some (.target t)⟩ | ⟨.jumpIfTrue, some (.target t)⟩ => .tests t
  | ⟨.logicalAnd, some (.target t)⟩ | ⟨.logicalOr, some (.target t)⟩ => .shortcuts t
  | ⟨.enterTry, some (.target t)⟩ => .opensRegion t
  | ⟨.leaveTry, _⟩ => .closesRegion
  | ⟨.pushCatchScope, _⟩ | ⟨.pushWithScope, _⟩ => .pushesScope
  | ⟨.popScope, _⟩ => .popsScope
  | ⟨.jump, _⟩ | ⟨.jumpIfFalse, _⟩ | ⟨.jumpIfTrue, _⟩ | ⟨.logicalAnd, _⟩ | ⟨.logicalOr, _⟩ | ⟨.enterTry, _⟩
  | ⟨.ret, _⟩ | ⟨.throwValue, _⟩ => .ends
  | _ => .falls

/-- The number of operands that an instruction takes off the stack or looks at. -/
def takes (i : Instruction) : Nat :=
  match i.opcode with
  | .pop | .dup | .neg | .toNumber | .not | .bitNot | .typeOf | .storeLocal | .storeSlot | .storeName
  | .storeNameStrict | .jumpIfFalse | .jumpIfTrue | .logicalAnd | .logicalOr | .ret | .forInPrepare
  | .pushCatchScope | .pushWithScope | .throwValue => 1
  | .dup2 | .swap | .add | .sub | .mul | .div | .mod | .eq | .ne | .strictEq | .strictNe | .lt | .le | .gt | .ge
  | .bitAnd | .bitOr | .bitXor | .shl | .shr | .ushr | .getProperty | .deleteProperty | .defineProperty
  | .instanceOf | .isIn => 2
  | .setProperty => 3
  | .call | .callEval => i.argumentCount + 2
  | .new => i.argumentCount + 1
  | _ => 0

end Instruction

namespace Shape

/-- The shape behind an instruction that opens and closes nothing. -/
def after (S : Shape) (i : Instruction) : Shape := ⟨(S.height + i.stackEffect).toNat, S.opened⟩

/-- From an instruction at a position, with the given shape there, control goes only where the
shape is the one that it brings. Handlers start with the exception alone. In the case `X` regions
are opened on an empty stack. -/
def Flows (X : Prop) (R : Nat → Shape → Prop) (p : Nat) (S : Shape) (i : Instruction) : Prop :=
  i.takes ≤ S.height ∧
    match i.transfer with
    | .falls => R (p + 1) (S.after i)
    | .jumps t => R t S
    | .tests t => R t (S.after i) ∧ R (p + 1) (S.after i)
    | .shortcuts t => R t S ∧ R (p + 1) (S.after i)
    | .opensRegion t => (X → S.height = 0) ∧ R t ⟨1, S.opened⟩ ∧ R (p + 1) ⟨S.height, .attempt p :: S.opened⟩
    | .closesRegion => ∃ e C, S.opened = .attempt e :: C ∧ R (p + 1) ⟨S.height, C⟩
    | .pushesScope => R (p + 1) ⟨S.height - 1, .scope p :: S.opened⟩
    | .popsScope => ∃ e C, S.opened = .scope e :: C ∧ R (p + 1) ⟨S.height, C⟩
    | .ends => True

theorem Flows.mono {X : Prop} {R R' : Nat → Shape → Prop} {p : Nat} {S : Shape} {i : Instruction}
    (h : S.Flows X R p i) (hR : ∀ j T, R j T → R' j T) : S.Flows X R' p i := by
  refine ⟨h.1, ?_⟩
  have h := h.2
  revert h
  cases i.transfer with
  | falls => exact hR _ _
  | jumps t => exact hR _ _
  | tests t => exact fun h => ⟨hR _ _ h.1, hR _ _ h.2⟩
  | shortcuts t => exact fun h => ⟨hR _ _ h.1, hR _ _ h.2⟩
  | opensRegion t => exact fun h => ⟨h.1, hR _ _ h.2.1, hR _ _ h.2.2⟩
  | closesRegion => exact fun ⟨e, C, h⟩ => ⟨e, C, h.1, hR _ _ h.2⟩
  | pushesScope => exact hR _ _
  | popsScope => exact fun ⟨e, C, h⟩ => ⟨e, C, h.1, hR _ _ h.2⟩
  | ends => exact id

end Shape

/-- The unit starts with nothing open, and wherever control can come in its first `size`
instructions the shapes agree. -/
structure CodeUnit.Shaped (X : Prop) (u : CodeUnit) (size : Nat) (shape : Nat → Shape) : Prop where
  pos : 0 < size
  start : shape 0 = ⟨0, []⟩
  flows : ∀ p, p < size → ∃ i, u.instructions[p]? = some i ∧
    (shape p).Flows X (fun q T => q < size ∧ shape q = T) p i

/-! ## Rules -/

/-- The instruction addresses no slot, makes no closure and does not ask for variables that are looked
up by name. -/
def Instruction.isPlain (i : Instruction) : Bool :=
  match i.opcode with
  | .loadSlot | .storeSlot | .closure | .callEval | .pushWithScope => false
  | _ => true

/-- What is asked of the instructions of a unit besides that the shapes agree. -/
structure Rules (u : CodeUnit) where
  /-- Regions are opened on an empty stack. -/
  flat : Prop
  /-- The unit may call `eval` by its name and search objects for variables. -/
  dynamic : Prop
  /-- Code that addresses these scopes by slots may stand where these constructs are open. -/
  sees : Env → List Open → Prop
  /-- The instruction may stand where these constructs are open. -/
  fits : List Open → Instruction → Prop
  plain {C i} : i.isPlain = true → fits C i
  slot {env C op depth index} : op = .loadSlot ∨ op = .storeSlot → sees env C → depth < env.length →
    fits C ⟨op, some (.slot depth index)⟩
  closure {o env src C k v} : sees env C → u.functions[k]? = some v → Lowered o env src v →
    fits C ⟨.closure, some (.function k)⟩
  eval {C operand} : dynamic → fits C ⟨.callEval, operand⟩
  withScope {C} : dynamic → fits C ⟨.pushWithScope, none⟩
  attempt {env C e} : sees env C → sees env (.attempt e :: C)
  caught {env C e k} (name) : sees env C → u.instructions[e]? = some ⟨.pushCatchScope, some (.property k)⟩ →
    sees (#[name] :: env) (.scope e :: C)
  object {C e} : u.instructions[e]? = some ⟨.pushWithScope, none⟩ → sees [] (.scope e :: C)

namespace Rules

variable {u : CodeUnit} {Q : Rules u} {a b : Bool}

/-- Nothing is asked but that regions may have to be opened on an empty stack. -/
def heights (u : CodeUnit) (X : Prop) : Rules u where
  flat := X
  dynamic := True
  sees _ _ := True
  fits _ _ := True
  plain _ := trivial
  slot _ _ _ := trivial
  closure _ _ _ := trivial
  eval _ := trivial
  withScope _ := trivial
  attempt _ := trivial
  caught _ _ _ := trivial
  object _ := trivial

/-- A part of the program that needs variables to be looked up by name is allowed. -/
def Covers (Q : Rules u) (dynamic : Bool) : Prop := dynamic = true → Q.dynamic

theorem covers_or : Q.Covers (a || b) ↔ Q.Covers a ∧ Q.Covers b := by
  simp only [Covers, Bool.or_eq_true]
  exact or_imp

theorem Covers.left (h : Q.Covers (a || b)) : Q.Covers a := (covers_or.1 h).1

theorem Covers.right (h : Q.Covers (a || b)) : Q.Covers b := (covers_or.1 h).2

end Rules

/-! ## Pieces of code -/

def Borders (a b : Nat) (S T : Shape) : Nat → Shape → Prop := fun p U => p = a ∧ U = S ∨ p = b ∧ U = T

/-- The code between two positions leads from one shape to another, and its instructions keep to the
rules. It may go out to the positions in `J`; inside, the positions in `E` have the shapes given there. -/
def Piece {u : CodeUnit} (Q : Rules u) (J E : Nat → Shape → Prop) (a b : Nat) (S T : Shape) : Prop :=
  a ≤ b ∧ ∃ shape : Nat → Shape, shape a = S ∧ shape b = T ∧
    (∀ p U, E p U → a ≤ p ∧ p ≤ b ∧ shape p = U) ∧
    ∀ p, a ≤ p → p < b → ∃ i, u.instructions[p]? = some i ∧ Q.fits (shape p).opened i ∧
      (shape p).Flows Q.flat (fun q U => (a ≤ q ∧ q ≤ b ∧ shape q = U) ∨ J q U) p i

namespace Piece

variable {u : CodeUnit} {Q : Rules u} {J J' E E' L : Nat → Shape → Prop} {a m b : Nat} {S M T : Shape}

theorem le (h : Piece Q J E a b S T) : a ≤ b := h.1

theorem jumps (h : Piece Q J E a b S T) (hJ : ∀ p U, J p U → J' p U) : Piece Q J' E a b S T := by
  obtain ⟨hab, shape, ha, hb, hE, hp⟩ := h
  refine ⟨hab, shape, ha, hb, hE, fun p hap hpb => ?_⟩
  obtain ⟨i, hi, hq, hf⟩ := hp p hap hpb
  exact ⟨i, hi, hq, hf.mono fun q U h => h.imp id (hJ q U)⟩

theorem ends (h : Piece Q J E a b S T) : Piece Q J (Borders a b S T) a b S T := by
  obtain ⟨hab, shape, ha, hb, -, hp⟩ := h
  refine ⟨hab, shape, ha, hb, ?_, hp⟩
  rintro p U (⟨rfl, rfl⟩ | ⟨rfl, rfl⟩)
  · exact ⟨Nat.le_refl _, hab, ha⟩
  · exact ⟨hab, Nat.le_refl _, hb⟩

theorem nil (J : Nat → Shape → Prop) : Piece Q J (Borders a a S S) a a S S := by
  refine ⟨Nat.le_refl _, fun _ => S, rfl, rfl, ?_, fun p hap hpa => (Nat.not_lt.2 hap hpa).elim⟩
  rintro p U (⟨rfl, rfl⟩ | ⟨rfl, rfl⟩) <;> exact ⟨Nat.le_refl _, Nat.le_refl _, rfl⟩

theorem one {i : Instruction} (hi : u.instructions[a]? = some i) (hq : Q.fits S.opened i)
    (hf : S.Flows Q.flat (fun q U => q = a + 1 ∧ U = T ∨ J q U) a i) :
    Piece Q J (Borders a (a + 1) S T) a (a + 1) S T := by
  refine ⟨Nat.le_succ a, fun p => if p = a then S else T, if_pos rfl, if_neg (Nat.succ_ne_self a), ?_, ?_⟩
  · rintro p U (⟨rfl, rfl⟩ | ⟨rfl, rfl⟩)
    · exact ⟨Nat.le_refl _, Nat.le_succ _, if_pos rfl⟩
    · exact ⟨Nat.le_succ _, Nat.le_refl _, if_neg (Nat.succ_ne_self a)⟩
  · intro p hap hpb
    obtain rfl : p = a := Nat.le_antisymm (Nat.le_of_lt_succ hpb) hap
    refine ⟨i, hi, ?_⟩
    dsimp only
    rw [if_pos rfl]
    refine ⟨hq, hf.mono ?_⟩
    rintro q U (⟨rfl, rfl⟩ | h)
    · exact .inl ⟨Nat.le_succ _, Nat.le_refl _, if_neg (Nat.succ_ne_self p)⟩
    · exact .inr h

theorem seq (h : Piece Q J E a m S M) (h' : Piece Q J E' m b M T) :
    Piece Q J (fun p U => E p U ∨ E' p U) a b S T := by
  obtain ⟨ham, shape, ha, hm, hE, hp⟩ := h
  obtain ⟨hmb, shape', hm', hb, hE', hp'⟩ := h'
  have hleft : ∀ p, p ≤ m → (if p < m then shape p else shape' p) = shape p := by
    intro p hpm
    split
    · rfl
    · rw [Nat.le_antisymm hpm (Nat.not_lt.1 ‹_›), hm, hm']
  have hright : ∀ p, m ≤ p → (if p < m then shape p else shape' p) = shape' p :=
    fun p hmp => if_neg (Nat.not_lt.2 hmp)
  refine ⟨Nat.le_trans ham hmb, fun p => if p < m then shape p else shape' p,
    (hleft a ham).trans ha, (hright b hmb).trans hb, ?_, fun p hap hpb => ?_⟩
  · rintro p U (hU | hU)
    · obtain ⟨h₁, h₂, h₃⟩ := hE p U hU
      exact ⟨h₁, Nat.le_trans h₂ hmb, (hleft p h₂).trans h₃⟩
    · obtain ⟨h₁, h₂, h₃⟩ := hE' p U hU
      exact ⟨Nat.le_trans ham h₁, h₂, (hright p h₁).trans h₃⟩
  · by_cases hpm : p < m
    · obtain ⟨i, hi, hq, hf⟩ := hp p hap hpm
      refine ⟨i, hi, ?_⟩
      dsimp only
      rw [hleft p (Nat.le_of_lt hpm)]
      refine ⟨hq, hf.mono fun q U h => h.imp (fun ⟨h₁, h₂, h₃⟩ => ?_) id⟩
      exact ⟨h₁, Nat.le_trans h₂ hmb, (hleft q h₂).trans h₃⟩
    · obtain ⟨i, hi, hq, hf⟩ := hp' p (Nat.not_lt.1 hpm) hpb
      refine ⟨i, hi, ?_⟩
      dsimp only
      rw [hright p (Nat.not_lt.1 hpm)]
      refine ⟨hq, hf.mono fun q U h => h.imp (fun ⟨h₁, h₂, h₃⟩ => ?_) id⟩
      exact ⟨Nat.le_trans ham h₁, h₂, (hright q h₁).trans h₃⟩

theorem close (h : Piece Q (fun p U => L p U ∨ J p U) E a b S T) (hL : ∀ p U, L p U → E p U) :
    Piece Q J E a b S T := by
  obtain ⟨hab, shape, ha, hb, hE, hp⟩ := h
  refine ⟨hab, shape, ha, hb, hE, fun p hap hpb => ?_⟩
  obtain ⟨i, hi, hq, hf⟩ := hp p hap hpb
  exact ⟨i, hi, hq, hf.mono fun q U h => h.elim .inl fun h => h.elim (fun h => .inl (hE q U (hL q U h))) .inr⟩

end Piece

end ScriptEngine
