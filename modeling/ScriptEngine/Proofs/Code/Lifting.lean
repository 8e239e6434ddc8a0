/-
The code of expressions has shapes and keeps to the rules. It works on top of
the stack and opens nothing (`Lifts`). Main statement: `lifts_expr`, the code of an
expression leaves one operand more.
-/
import ScriptEngine.Proofs.Code.Shape

namespace ScriptEngine

open Layout

/-- Code that works on top of the stack: it takes `k` operands and leaves `j`. -/
def Lifts {u : CodeUnit} (Q : Rules u) (C : List Open) (k j : Nat) (x : Code) : Prop :=
  ∀ J n a b, x a b → Piece Q J (Borders a.pc b.pc ⟨n + k, C⟩ ⟨n + j, C⟩) a.pc b.pc ⟨n + k, C⟩ ⟨n + j, C⟩

namespace Lifts

variable {u : CodeUnit} {Q : Rules u} {C : List Open} {x y : Code} {k j l : Nat}

theorem nil : Lifts Q C k k .nil := by
  rintro J n a _ rfl
  exact .nil J

theorem never : Lifts Q C k j .never := fun _ _ _ _ h => h.elim

theorem seq (hx : Lifts Q C k j x) (hy : Lifts Q C j l y) : Lifts Q C k l (x ++ y) :=
  fun J n a b ⟨m, h, _, h'⟩ => ((hx J n a m h).seq (hy J n m b h')).ends

theorem above (d : Nat) (hx : Lifts Q C k j x) : Lifts Q C (k + d) (j + d) x := by
  intro J n a b h
  have hd := hx J (n + d) a b h
  rwa [Nat.add_right_comm n d k, Nat.add_right_comm n d j, Nat.add_assoc, Nat.add_assoc] at hd

theorem temporary {K : Nat → Code} (h : ∀ t, Lifts Q C k j (K t)) : Lifts Q C k j (.temporary K) :=
  fun J n a b hK => h a.temps J n ⟨a.pc, a.temps + 1⟩ b hK

theorem one {i : Instruction} (hf : i.transfer = .falls) (ht : i.takes = k) (he : (k : Int) + i.stackEffect = j)
    (hq : Q.fits C i) : Lifts Q C k j (Code.op u i) := by
  rintro J n a _ ⟨hi, rfl⟩
  refine .one hi hq ⟨by rw [ht]; exact Nat.le_add_left k n, ?_⟩
  rw [hf]
  refine .inl ⟨rfl, ?_⟩
  have hn : (((n + k : Nat) : Int) + i.stackEffect).toNat = n + j := by omega
  rw [Shape.after, hn]

theorem op {i : Instruction} (hf : i.transfer = .falls) (ht : i.takes = k) (he : (k : Int) + i.stackEffect = j)
    (hi : i.isPlain = true) : Lifts Q C k j (Code.op u i) :=
  .one hf ht he (Q.plain hi)

end Lifts

section

variable {c : Setting} {Q : Rules c.unit} {C : List Open}

theorem lifts_constant (v : Value) : Lifts Q C 0 1 (constant c v) :=
  fun J n a b ⟨_, _, h⟩ => Lifts.op rfl rfl rfl rfl J n a b h

theorem lifts_named {op : Opcode} {name : String} {k j : Nat}
    (hf : ∀ i, Instruction.transfer ⟨op, some (.property i)⟩ = .falls)
    (ht : ∀ i, Instruction.takes ⟨op, some (.property i)⟩ = k)
    (he : ∀ i, (k : Int) + Instruction.stackEffect ⟨op, some (.property i)⟩ = j)
    (hi : ∀ i, Instruction.isPlain ⟨op, some (.property i)⟩ = true) :
    Lifts Q C k j (named c op name) :=
  fun J n a b ⟨i, _, h⟩ => Lifts.op (hf i) (ht i) (he i) (hi i) J n a b h

theorem lifts_define (name : String) : Lifts Q C 2 1 (named c .defineProperty name) :=
  lifts_named (fun _ => rfl) (fun _ => rfl) (fun _ => rfl) fun _ => rfl

theorem lifts_slot {op : Opcode} (hop : op = .loadSlot ∨ op = .storeSlot) {name : String} {depth index k j : Nat}
    (hf : Instruction.transfer ⟨op, some (.slot depth index)⟩ = .falls)
    (ht : Instruction.takes ⟨op, some (.slot depth index)⟩ = k)
    (he : (k : Int) + Instruction.stackEffect ⟨op, some (.slot depth index)⟩ = j)
    (hs : Q.sees c.env C) (hd : depth < c.env.length) : Lifts Q C k j (slot c op name depth index) :=
  fun J n a b ⟨_, h⟩ => Lifts.one hf ht he (Q.slot hop hs hd) J n a b h

theorem lifts_kept (name : String) : Lifts Q C 0 1 (kept c name) :=
  fun J n a b ⟨_, h⟩ => Lifts.op rfl rfl rfl rfl J n a b h

theorem lifts_boolean (v : Bool) : Lifts Q C 0 1 (boolean c v) := by
  rintro J n a b ⟨-, h⟩
  cases v with
  | true => exact Lifts.op rfl rfl rfl rfl J n a b h
  | false => exact Lifts.op rfl rfl rfl rfl J n a b h

theorem lifts_load (hs : Q.sees c.env C) (name : String) : Lifts Q C 0 1 (load c name) := by
  unfold load
  cases h : c.env.resolve name with
  | slot depth index => exact lifts_slot (.inl rfl) rfl rfl rfl hs (Env.lt_of_resolve h)
  | byName => exact lifts_named (fun _ => rfl) (fun _ => rfl) (fun _ => rfl) fun _ => rfl

theorem lifts_store (hs : Q.sees c.env C) (name : String) : Lifts Q C 1 1 (store c name) := by
  unfold store
  cases h : c.env.resolve name with
  | slot depth index => exact lifts_slot (.inr rfl) rfl rfl rfl hs (Env.lt_of_resolve h)
  | byName =>
    cases c.strict with
    | true => exact lifts_named (fun _ => rfl) (fun _ => rfl) (fun _ => rfl) fun _ => rfl
    | false => exact lifts_named (fun _ => rfl) (fun _ => rfl) (fun _ => rfl) fun _ => rfl

theorem lifts_closure (hs : Q.sees c.env C) (src : Meaning.Source) : Lifts Q C 0 1 (closure c src) :=
  fun J n a b ⟨_, _, hk, hu, h⟩ => Lifts.one rfl rfl rfl (Q.closure hs hk hu) J n a b h

theorem lifts_binary (op : BinaryOp) : Lifts Q C 2 1 (emit c (Lowering.binaryOpcode op)) := by
  cases op <;> exact Lifts.op rfl rfl rfl rfl

/-! ## References -/

/-- The parts of a reference push what they stand for. -/
def RefLifts {u : CodeUnit} (Q : Rules u) (C : List Open) : Reference → Prop
  | .property object key => Lifts Q C 0 1 object ∧ Lifts Q C 0 1 key
  | _ => True

variable {r : Reference} {value : Code}

theorem lifts_typeof (hs : Q.sees c.env C) (r : Reference) (hv : Lifts Q C 0 1 value) :
    Lifts Q C 0 1 (typeofAt c r value) := by
  refine Lifts.seq ?_ (Lifts.op rfl rfl rfl rfl : Lifts Q C 1 1 _)
  cases r with
  | name name =>
    dsimp only
    cases c.env.resolve name with
    | slot _ _ => exact lifts_load hs name
    | byName => exact lifts_named (fun _ => rfl) (fun _ => rfl) (fun _ => rfl) fun _ => rfl
  | property _ _ => exact hv
  | value => exact hv

theorem lifts_delete (hr : RefLifts Q C r) (hv : Lifts Q C 0 1 value) :
    Lifts Q C 0 1 (deleteAt c r value) := by
  cases r with
  | name name =>
    simp only [deleteAt]
    cases c.env.resolve name with
    | slot _ _ => exact lifts_kept name
    | byName => exact lifts_named (fun _ => rfl) (fun _ => rfl) (fun _ => rfl) fun _ => rfl
  | property _ _ => exact hr.1.seq ((hr.2.above 1).seq (Lifts.op rfl rfl rfl rfl))
  | value => exact hv.seq (Lifts.seq (Lifts.op rfl rfl rfl rfl : Lifts Q C 1 0 _) (Lifts.op rfl rfl rfl rfl))

theorem lifts_step (op : UpdateOp) : Lifts Q C 2 1 (emit c (stepOpcode op)) := by
  cases op <;> exact Lifts.op rfl rfl rfl rfl

theorem lifts_update (hs : Q.sees c.env C) (op : UpdateOp) (before : Bool) (hr : RefLifts Q C r) :
    Lifts Q C 0 1 (updateAt c op before r) := by
  have hone : Lifts Q C 0 1 (constant c (Meaning.literal 1.0)) := lifts_constant _
  have htoNumber : Lifts Q C 1 1 (emit c .toNumber) := Lifts.op rfl rfl rfl rfl
  have hdup : Lifts Q C 1 2 (emit c .dup) := Lifts.op rfl rfl rfl rfl
  have hpop : Lifts Q C 1 0 (emit c .pop) := Lifts.op rfl rfl rfl rfl
  match r, hr with
  | .name name, _ =>
    cases before with
    | true =>
      exact (lifts_load hs name).seq (htoNumber.seq ((hone.above 1).seq ((lifts_step op).seq (lifts_store hs name))))
    | false =>
      exact (lifts_load hs name).seq (htoNumber.seq (hdup.seq ((hone.above 2).seq (((lifts_step op).above 1).seq
        (((lifts_store hs name).above 1).seq (hpop.above 1))))))
  | .property object key, ⟨hobject, hkey⟩ =>
    -- what both forms begin with
    have hread : ∀ {j : Nat} {y : Code}, Lifts Q C 3 j y → Lifts Q C 0 j
        (object ++ (key ++ (emit c .dup2 ++ (emit c .getProperty ++ (emit c .toNumber ++ y))))) := fun hy =>
      hobject.seq ((hkey.above 1).seq ((Lifts.op rfl rfl rfl rfl : Lifts Q C 2 4 _).seq
        (((Lifts.op rfl rfl rfl rfl : Lifts Q C 2 1 (emit c .getProperty)).above 2).seq ((htoNumber.above 2).seq hy))))
    have hset : Lifts Q C 3 1 (emit c .setProperty) := Lifts.op rfl rfl rfl rfl
    cases before with
    | true => exact hread ((hone.above 3).seq (((lifts_step op).above 2).seq hset))
    | false =>
      exact hread (Lifts.temporary fun old => (hdup.above 2).seq
        (((Lifts.op rfl rfl rfl rfl : Lifts Q C 1 0 _).above 3).seq ((hone.above 3).seq (((lifts_step op).above 2).seq
          (hset.seq (hpop.seq (Lifts.op rfl rfl rfl rfl)))))))
  | .value, _ => exact Lifts.never

theorem lifts_assignment (hs : Q.sees c.env C) (op : Option BinaryOp) (hr : RefLifts Q C r) (hv : Lifts Q C 0 1 value) :
    Lifts Q C 0 1 (assignmentAt c op r value) := by
  match r, hr with
  | .name name, _ =>
    cases op with
    | some op => exact (lifts_load hs name).seq ((hv.above 1).seq ((lifts_binary op).seq (lifts_store hs name)))
    | none => exact hv.seq (lifts_store hs name)
  | .property object key, ⟨hobject, hkey⟩ =>
    cases op with
    | some op =>
      exact hobject.seq ((hkey.above 1).seq ((Lifts.op rfl rfl rfl rfl : Lifts Q C 2 4 _).seq
        (((Lifts.op rfl rfl rfl rfl : Lifts Q C 2 1 (emit c .getProperty)).above 2).seq ((hv.above 3).seq
          (((lifts_binary op).above 2).seq (Lifts.op rfl rfl rfl rfl))))))
    | none => exact hobject.seq ((hkey.above 1).seq ((hv.above 2).seq (Lifts.op rfl rfl rfl rfl)))
  | .value, _ => exact Lifts.never

theorem lifts_callee (hs : Q.sees c.env C) (hr : RefLifts Q C r) (hv : Lifts Q C 0 1 value) :
    Lifts Q C 0 2 (calleeAt c r value) := by
  have hundefined : Lifts Q C 1 2 (emit c .loadUndefined) :=
    (Lifts.op rfl rfl rfl rfl : Lifts Q C 0 1 _).above 1
  match r, hr with
  | .name name, _ =>
    simp only [calleeAt]
    cases c.env.resolve name with
    | slot _ _ => exact (lifts_load hs name).seq hundefined
    | byName => exact lifts_named (fun _ => rfl) (fun _ => rfl) (fun _ => rfl) fun _ => rfl
  | .property object key, ⟨hobject, hkey⟩ =>
    exact hobject.seq ((Lifts.op rfl rfl rfl rfl : Lifts Q C 1 2 _).seq ((hkey.above 2).seq
      (((Lifts.op rfl rfl rfl rfl : Lifts Q C 2 1 (emit c .getProperty)).above 1).seq (Lifts.op rfl rfl rfl rfl))))
  | .value, _ => exact hv.seq hundefined

theorem lifts_call (isEval : Bool) (hd : Q.Covers isEval) (n : Nat) (description : String) :
    Lifts Q C (n + 2) 1 (callAt c (if isEval then .callEval else .call) n description) := by
  rintro J m a b ⟨k, _, h⟩
  have he : ((n + 2 : Nat) : Int) + -((n : Int) + 1) = ((1 : Nat) : Int) := by omega
  cases isEval with
  | true => exact Lifts.one (i := ⟨.callEval, some (.call n k)⟩) rfl rfl he (Q.eval (hd rfl)) J m a b h
  | false => exact Lifts.op (i := ⟨.call, some (.call n k)⟩) rfl rfl he rfl J m a b h

theorem lifts_new (n : Nat) : Lifts Q C (n + 1) 1 (emitWith c .new (.count n)) := by
  have he : ((n + 1 : Nat) : Int) + -(n : Int) = ((1 : Nat) : Int) := by omega
  exact Lifts.op rfl rfl he rfl

/-! ## Choices -/

theorem Piece.tests {J : Nat → Shape → Prop} {op : Opcode} (hop : op = .jumpIfFalse ∨ op = .jumpIfTrue) {t n : Nat}
    {a b : Point} (h : jump c op t a b) (hJ : J t ⟨n, C⟩) :
    Piece Q J (Borders a.pc b.pc ⟨n + 1, C⟩ ⟨n, C⟩) a.pc b.pc ⟨n + 1, C⟩ ⟨n, C⟩ := by
  obtain ⟨hi, rfl⟩ := h
  have hafter : Shape.after ⟨n + 1, C⟩ ⟨op, some (.target t)⟩ = ⟨n, C⟩ := by
    have hn : (((n + 1 : Nat) : Int) + -1).toNat = n := by omega
    obtain rfl | rfl := hop <;> exact congrArg (Shape.mk · C) hn
  refine .one hi (Q.plain ?_) ?_
  · obtain rfl | rfl := hop <;> rfl
  obtain rfl | rfl := hop <;> exact ⟨Nat.le_add_left 1 n, .inr (hafter ▸ hJ), .inl ⟨rfl, hafter⟩⟩

theorem Piece.jump {J : Nat → Shape → Prop} {t : Nat} {S : Shape} {a b : Point} (h : Layout.jump c .jump t a b)
    (hJ : J t S) (T : Shape) : Piece Q J (Borders a.pc b.pc S T) a.pc b.pc S T := by
  obtain ⟨hi, rfl⟩ := h
  exact .one hi (Q.plain rfl) ⟨Nat.zero_le _, .inr hJ⟩

theorem lifts_logical {op : Opcode} (hop : op = .logicalAnd ∨ op = .logicalOr) {x y : Code}
    (hx : Lifts Q C 0 1 x) (hy : Lifts Q C 0 1 y) :
    Lifts Q C 0 1 (.label fun done => x ++ (jump c op done ++ (y ++ .mark done))) := by
  rintro J n a b ⟨done, m₁, h₁, -, m₂, ⟨hi, rfl⟩, -, m₃, h₃, -, rfl, rfl⟩
  have hafter : Shape.after ⟨n + 1, C⟩ ⟨op, some (.target m₃.pc)⟩ = ⟨n, C⟩ := by
    have hn : (((n + 1 : Nat) : Int) + -1).toNat = n := by omega
    obtain rfl | rfl := hop <;> exact congrArg (Shape.mk · C) hn
  have hjump : Piece Q (fun p U => (p = m₃.pc ∧ U = ⟨n + 1, C⟩) ∨ J p U)
      (Borders m₁.pc (m₁.pc + 1) ⟨n + 1, C⟩ ⟨n, C⟩) m₁.pc (m₁.pc + 1) ⟨n + 1, C⟩ ⟨n, C⟩ := by
    refine .one hi (Q.plain ?_) ?_
    · obtain rfl | rfl := hop <;> rfl
    obtain rfl | rfl := hop <;>
      exact ⟨Nat.le_add_left 1 n, .inr (.inl ⟨rfl, rfl⟩), .inl ⟨rfl, hafter⟩⟩
  refine (((hx _ n a m₁ h₁).seq (hjump.seq (hy _ n _ _ h₃))).close ?_).ends
  rintro p U ⟨rfl, rfl⟩
  exact .inr (.inr (.inr ⟨rfl, rfl⟩))

theorem lifts_conditional {test x y : Code} (ht : Lifts Q C 0 1 test) (hx : Lifts Q C 0 1 x)
    (hy : Lifts Q C 0 1 y) :
    Lifts Q C 0 1 (.label fun otherwise => .label fun done =>
      test ++ (jump c .jumpIfFalse otherwise ++ (x ++ (jump c .jump done ++ (.mark otherwise ++ (y ++ .mark done)))))) := by
  rintro J n a b ⟨_, _, m₁, h₁, -, m₂, h₂, -, m₃, h₃, -, m₄, h₄, -, _, ⟨rfl, rfl⟩, -, m₅, h₅, -, rfl, rfl⟩
  refine (((ht _ n a m₁ h₁).seq ((Piece.tests (.inl rfl) h₂ (.inl (.inl ⟨rfl, rfl⟩))).seq ((hx _ n m₂ m₃ h₃).seq
    ((Piece.jump h₄ (.inl (.inr ⟨rfl, rfl⟩)) ⟨n, C⟩).seq (hy _ n m₄ m₅ h₅))))).close
    (L := fun p U => p = m₄.pc ∧ U = ⟨n, C⟩ ∨ p = m₅.pc ∧ U = ⟨n + 1, C⟩) ?_).ends
  rintro p U (⟨rfl, rfl⟩ | ⟨rfl, rfl⟩)
  · exact .inr (.inr (.inr (.inr (.inl ⟨rfl, rfl⟩))))
  · exact .inr (.inr (.inr (.inr (.inr ⟨rfl, rfl⟩))))

/-! ## Expressions -/

mutual

theorem lifts_expr (hs : Q.sees c.env C) : ∀ e : Expr, Q.Covers e.isDynamic → Lifts Q C 0 1 (exprAt c e)
  | .number n, _ => lifts_constant _
  | .string s, _ => lifts_constant _
  | .boolean b, _ => lifts_boolean b
  | .null, _ => Lifts.op rfl rfl rfl rfl
  | .identifier id, _ => lifts_load hs _
  | .this, _ => Lifts.op rfl rfl rfl rfl
  | .array elements, hd => (Lifts.op rfl rfl rfl rfl : Lifts Q C 0 1 _).seq (lifts_elements hs elements 0 hd)
  | .object properties, hd => (Lifts.op rfl rfl rfl rfl : Lifts Q C 0 1 _).seq (lifts_properties hs properties hd)
  | .function f, _ => lifts_closure hs _
  | .grouping e, hd => lifts_expr hs e hd
  | .unary op e, hd => by
    rw [Expr.isDynamic] at hd
    have he := lifts_expr hs e hd
    cases op with
    | typeof =>
      rw [exprAt]
      exact lifts_typeof hs _ he
    | delete =>
      rw [exprAt]
      exact lifts_delete (lifts_reference hs e hd) he
    | void =>
      rw [exprAt]
      exact he.seq ((Lifts.op rfl rfl rfl rfl : Lifts Q C 1 0 _).seq (Lifts.op rfl rfl rfl rfl))
    | minus =>
      rw [exprAt]
      exact he.seq (Lifts.op rfl rfl rfl rfl)
    | plus =>
      rw [exprAt]
      exact he.seq (Lifts.op rfl rfl rfl rfl)
    | logicalNot =>
      rw [exprAt]
      exact he.seq (Lifts.op rfl rfl rfl rfl)
    | bitwiseNot =>
      rw [exprAt]
      exact he.seq (Lifts.op rfl rfl rfl rfl)
  | .update op before e, hd => lifts_update hs op before (lifts_reference hs e hd)
  | .binary op l r, hd => (lifts_expr hs l hd.left).seq (((lifts_expr hs r hd.right).above 1).seq (lifts_binary op))
  | .logical op l r, hd => by
    rw [Expr.isDynamic, Rules.covers_or] at hd
    cases op with
    | and =>
      simp only [exprAt]
      exact lifts_logical (.inl rfl) (lifts_expr hs l hd.1) (lifts_expr hs r hd.2)
    | or =>
      simp only [exprAt]
      exact lifts_logical (.inr rfl) (lifts_expr hs l hd.1) (lifts_expr hs r hd.2)
  | .assignment op target value, hd =>
    lifts_assignment hs op (lifts_reference hs target hd.left) (lifts_expr hs value hd.right)
  | .conditional test x y, hd =>
    lifts_conditional (lifts_expr hs test hd.left.left) (lifts_expr hs x hd.left.right) (lifts_expr hs y hd.right)
  | .sequence items, hd => lifts_sequence hs items hd
  | .call callee arguments, hd =>
    (lifts_callee hs (lifts_reference hs callee hd.left.right) (lifts_expr hs callee hd.left.right)).seq
      (((lifts_arguments hs arguments hd.right).above 2).seq (lifts_call _ hd.left.left _ _))
  | .member object property, hd =>
    (lifts_expr hs object hd).seq (((lifts_constant _).above 1).seq (Lifts.op rfl rfl rfl rfl))
  | .index object key, hd =>
    (lifts_expr hs object hd.left).seq (((lifts_expr hs key hd.right).above 1).seq (Lifts.op rfl rfl rfl rfl))
  | .new (.call callee arguments), hd =>
    (lifts_expr hs callee hd.left.right).seq (((lifts_arguments hs arguments hd.right).above 1).seq (lifts_new _))
  | .new e, hd => by
    rw [Expr.isDynamic] at hd
    have he := (lifts_expr hs e hd).seq (lifts_new 0)
    cases e
    case call callee arguments =>
      rw [Expr.isDynamic, Rules.covers_or, Rules.covers_or] at hd
      rw [exprAt]
      exact (lifts_expr hs callee hd.1.2).seq (((lifts_arguments hs arguments hd.2).above 1).seq (lifts_new _))
    all_goals exact he

theorem lifts_reference (hs : Q.sees c.env C) : ∀ e : Expr, Q.Covers e.isDynamic → RefLifts Q C (referenceAt c e)
  | .grouping e, hd => lifts_reference hs e hd
  | .identifier id, _ => by
    rw [referenceAt]
    trivial
  | .member object property, hd => ⟨lifts_expr hs object hd, lifts_constant _⟩
  | .index object key, hd => ⟨lifts_expr hs object hd.left, lifts_expr hs key hd.right⟩
  | .number _, _ | .string _, _ | .boolean _, _ | .null, _ | .this, _ | .array _, _ | .object _, _ | .function _, _
  | .unary _ _, _ | .update _ _ _, _ | .binary _ _ _, _ | .logical _ _ _, _ | .assignment _ _ _, _
  | .conditional _ _ _, _ | .sequence _, _ | .call _ _, _ | .new _, _ => by
    rw [referenceAt.eq_def]
    trivial

theorem lifts_sequence (hs : Q.sees c.env C) :
    ∀ es : List Expr, Q.Covers (itemsDynamic es) → Lifts Q C 0 1 (sequenceAt c es)
  | [], _ => Lifts.never
  | [e], hd => lifts_expr hs e hd.left
  | e :: e' :: es, hd => by
    rw [itemsDynamic, Rules.covers_or] at hd
    rw [sequenceAt]
    · exact (lifts_expr hs e hd.1).seq
        ((Lifts.op rfl rfl rfl rfl : Lifts Q C 1 0 _).seq (lifts_sequence hs (e' :: es) hd.2))
    · simp

theorem lifts_elements (hs : Q.sees c.env C) : ∀ (es : List (Option Expr)) (i : Nat), Q.Covers (elementsDynamic es) →
    Lifts Q C 1 1 (elementsAt c es i)
  | [], _, _ => Lifts.nil
  | none :: es, i, hd => lifts_elements hs es (i + 1) hd.right
  | some e :: es, i, hd =>
    ((lifts_expr hs e hd.left).above 1).seq ((lifts_define _).seq (lifts_elements hs es (i + 1) hd.right))

theorem lifts_properties (hs : Q.sees c.env C) : ∀ ps : List (String × Expr), Q.Covers (propertiesDynamic ps) →
    Lifts Q C 1 1 (propertiesAt c ps)
  | [], _ => Lifts.nil
  | (name, e) :: ps, hd =>
    ((lifts_expr hs e hd.left).above 1).seq ((lifts_define name).seq (lifts_properties hs ps hd.right))

theorem lifts_arguments (hs : Q.sees c.env C) : ∀ arguments : Option Expr, Q.Covers (optionIsDynamic arguments) →
    Lifts Q C 0 (Expr.argumentList arguments).length (argumentsAt c arguments)
  | none, _ => Lifts.nil
  | some (.sequence items), hd => lifts_items hs items hd
  | some e, hd => by
    rw [optionIsDynamic] at hd
    have he := lifts_expr hs e hd
    cases e
    case sequence items =>
      rw [Expr.isDynamic] at hd
      rw [argumentsAt]
      exact lifts_items hs items hd
    all_goals exact he

theorem lifts_items (hs : Q.sees c.env C) :
    ∀ es : List Expr, Q.Covers (itemsDynamic es) → Lifts Q C 0 es.length (itemsAt c es)
  | [], _ => Lifts.nil
  | e :: es, hd => (lifts_expr hs e hd.left).seq ((lifts_items hs es hd.right).above 1)

end

end

end ScriptEngine
