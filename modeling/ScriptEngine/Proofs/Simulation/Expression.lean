/-
The code of an expression does what evaluating the expression does: it pushes
the value, or raises the same. Main statement: `does_expr`; for plain expressions
no host is needed (`pushes_expr`).
-/
import ScriptEngine.Proofs.Meaning.Plain
import ScriptEngine.Proofs.Simulation.Call

namespace ScriptEngine

open Meaning Layout

/-- The code of an expression pushes the value that evaluation gives. -/
def Pushes (M : Mode) (n : Nat) (K : Stage) (C : Code) (x : Eval Value) : Prop :=
  ∀ st, Does M n K C x st (· :: st)

/-- What the code of an expression refers to is what evaluation refers to. -/
def RefDoes (M : Mode) (n : Nat) (K : Stage) : Reference → Target → Prop
  | .name x, .name y => x = y
  | .property object key, .property object' key' => Pushes M n K object object' ∧ Pushes M n K key key'
  | .value, .value => True
  | _, _ => False

section

variable {M : Mode} {n : Nat} {h : Host} {K : Stage} {c : Setting} {act : Activation} {C : Code} {x : Eval Value}
  {ref : Reference} {t : Target}

theorem pushes_constant (hc : Suits M K c act) (v : Value) : Pushes M n K (constant c v) (pure v) :=
  fun _ => .returns (does_constant hc v)

/-! ## Operators on references -/

theorem does_typeof (hc : Suits M K c act) (hr : RefDoes M n K ref t) (hx : Pushes M n K C x) :
    Pushes M n K (typeofAt c ref C) (evalTypeof act t x) := by
  intro st
  match ref, t, hr with
  | .name name, .name _, rfl => exact (does_peek hc name).seq fun v => .returns (does_typeOf hc v)
  | .property _ _, .property _ _, _ => exact (hx st).seq fun v => .returns (does_typeOf hc v)
  | .value, .value, _ => exact (hx st).seq fun v => .returns (does_typeOf hc v)

theorem does_deleteAt (hc : Suits M K c act) (hr : RefDoes M n K ref t) (hx : Pushes M n K C x) :
    Pushes M n K (deleteAt c ref C) (evalDelete act t x) := by
  intro st
  match ref, t, hr with
  | .name name, .name _, rfl =>
    exact .bind_pure (does_delete hc name)
  | .property object key, .property object' key', ⟨ho, hk⟩ =>
    exact (ho st).seq fun base => (hk (base :: st)).seq fun key => .bind_pure (does_deleteProperty hc base key)
  | .value, .value, _ =>
    exact (hx st).seq fun v => .skip (does_pop hc v) (.returns (does_true hc))

theorem binaryOpcode_stepOperator (op : UpdateOp) : Lowering.binaryOpcode (stepOperator op) = stepOpcode op := by
  cases op <;> rfl

theorem does_step (hc : Suits M K c act) (op : UpdateOp) (v w : Value) {st : List Value} :
    Does M n K (emit c (stepOpcode op)) (applyBinary (stepOperator op) v w) (w :: v :: st) (· :: st) := by
  rw [← binaryOpcode_stepOperator]
  exact does_binary hc (stepOperator op) v w

theorem does_update (hc : Suits M K c act) (op : UpdateOp) (before : Bool) (hr : RefDoes M n K ref t) :
    Pushes M n K (updateAt c op before ref) (evalUpdate act op before t) := by
  intro st
  match ref, t, hr with
  | .name name, .name _, rfl =>
    cases before with
    | true =>
      exact (does_load hc name).seq fun v => (does_asNumber hc v).seq fun old =>
        .skip (does_constant hc _) ((does_step hc op old _).seq fun new => .bind_pure (does_store hc name new))
    | false =>
      exact (does_load hc name).seq fun v => (does_asNumber hc v).seq fun old =>
        .skip (does_dup hc old) (.skip (does_constant hc _) ((does_step hc op old _).seq fun new =>
          (does_store hc name new).seq fun _ => .returns (does_pop hc new)))
  | .property object key, .property object' key', ⟨ho, hk⟩ =>
    cases before with
    | true =>
      exact (ho st).seq fun base => (hk (base :: st)).seq fun key => .skip (does_dup2 hc base key)
        ((does_getProperty hc base key).seq fun v => (does_asNumber hc v).seq fun old =>
          .skip (does_constant hc _) ((does_step hc op old _).seq fun new =>
            .bind_pure (does_setProperty hc base key new)))
    | false =>
      refine (ho st).seq fun base => (hk (base :: st)).seq fun key => .skip (does_dup2 hc base key)
        ((does_getProperty hc base key).seq fun v => (does_asNumber hc v).seq fun old => ?_)
      -- The old number waits in a temporary while the new one is stored.
      intro a b ha ⟨m, hdup, hm, hl⟩
      have hne := hc.completion_ne ha
      rw [hc.completion] at hne
      refine .skip (does_dup hc old ⟨a.pc, a.temps + 1⟩ m (Nat.le_succ_of_le ha) hdup) ?_
      refine runs_keep hc ha hm hl fun K' hc' ht' hv => ?_
      exact .skip (does_constant hc' _) ((does_step hc' op old _).seq fun new =>
        (does_setProperty hc' base key new).seq fun _ => .skip (does_pop hc' new)
          (.returns (does_loadKept hc' ht' hv hne)))
  | .value, .value, _ => exact fun a b _ hl => hl.elim

theorem does_assignment (hc : Suits M K c act) (op : Option BinaryOp) (hr : RefDoes M n K ref t)
    (hx : Pushes M n K C x) : Pushes M n K (assignmentAt c op ref C) (evalAssignment act op t x) := by
  intro st
  match ref, t, hr with
  | .name name, .name _, rfl =>
    cases op with
    | some op =>
      simp only [evalAssignment, combine, bind_assoc]
      exact (does_load hc name).seq fun v => (hx (v :: st)).seq fun w => (does_binary hc op v w).seq fun new =>
        .bind_pure (does_store hc name new)
    | none => exact (hx st).seq fun v => .bind_pure (does_store hc name v)
  | .property object key, .property object' key', ⟨ho, hk⟩ =>
    cases op with
    | some op =>
      simp only [evalAssignment, combine, bind_assoc]
      exact (ho st).seq fun base => (hk (base :: st)).seq fun key => .skip (does_dup2 hc base key)
        ((does_getProperty hc base key).seq fun v => (hx (v :: key :: base :: st)).seq fun w =>
          (does_binary hc op v w).seq fun new => .bind_pure (does_setProperty hc base key new))
    | none =>
      exact (ho st).seq fun base => (hk (base :: st)).seq fun key => (hx (key :: base :: st)).seq fun v =>
        .bind_pure (does_setProperty hc base key v)
  | .value, .value, _ => exact fun a b _ hl => hl.elim

theorem does_callee (hc : Suits M K c act) (hr : RefDoes M n K ref t) (hx : Pushes M n K C x) (st : List Value) :
    Does M n K (calleeAt c ref C) (evalCallee act t x) st fun p => p.2 :: p.1 :: st := by
  match ref, t, hr with
  | .name name, .name _, rfl => exact does_readWithReceiver hc name
  | .property object key, .property object' key', ⟨ho, hk⟩ =>
    exact (ho st).seq fun base => .skip (does_dup hc base) ((hk (base :: base :: st)).seq fun key =>
      (does_getProperty hc base key).seq fun v => .returns (does_swap hc base v))
  | .value, .value, _ => exact (hx st).seq fun v => .returns (does_undefined hc)

theorem does_assignTop (hc : Suits M K c act) {e : Expr} {v : Value}
    (hr : ∀ K', Suits M K' c act → RefDoes M n K' (referenceAt c e) (target h act e)) (st : List Value) :
    Does M n K (assignTopAt c e) (assignValue h act e v) (v :: st) fun _ => v :: st := by
  unfold assignTopAt assignValue
  have hr' := hr K hc
  match hre : referenceAt c e, ht : target h act e, hr' with
  | .name name, .name _, rfl => exact does_store hc name v
  | .property object key, .property object' key', _ =>
    intro a b ha hl
    have hne := hc.completion_ne ha
    rw [hc.completion] at hne
    refine runs_keep (a := ⟨a.pc, a.temps + 1⟩) hc ha (Nat.le_refl _) hl fun K' hc' ht' hv => ?_
    have hr'' := hr K' hc'
    rw [hre, ht] at hr''
    exact (hr''.1 st).seq fun base => (hr''.2 (base :: st)).seq fun key =>
      .skip (does_loadKept hc' ht' hv hne) (does_setProperty hc' base key v)
  | .value, .value, _ => exact fun a b _ hl => hl.elim

/-! ## Compound expressions -/

theorem does_logical (hc : Suits M K c act) (op : LogicalOp) {D : Code} {y : Eval Value} (hx : Pushes M n K C x)
    (hy : Pushes M n K D y) :
    Pushes M n K (.label fun done => C ++ (jump c (match op with
      | .and => .logicalAnd
      | .or => .logicalOr) done ++ (D ++ .mark done)))
      (do
        let v ← x
        match op with
        | .and => if v.toBoolean then y else return v
        | .or => if v.toBoolean then return v else y) := by
  intro st a b ha ⟨done, m, hC, hm, m', ⟨hi, hm'⟩, hle, m'', hD, _, heq, hdone⟩
  cases hm'
  cases heq
  subst hdone
  refine (hx st a m ha hC).bind fun v => ?_
  have hgo := hy st _ b (Nat.le_trans ha (Nat.le_trans hm hle)) hD
  cases op with
  | and =>
    refine runs_shortCircuit false hc rfl hi (fun hv => ?_) fun hv => ?_
    · simp only [hv, Bool.false_eq_true, if_false]
      exact .pure rfl
    · simp only [Bool.not_eq_false] at hv
      simp only [hv, if_true]
      exact hgo
  | or =>
    refine runs_shortCircuit true hc rfl hi (fun hv => ?_) fun hv => ?_
    · simp only [hv, if_true]
      exact .pure rfl
    · simp only [Bool.not_eq_true] at hv
      simp only [hv, Bool.false_eq_true, if_false]
      exact hgo

theorem does_conditional (hc : Suits M K c act) {D E : Code} {y z : Eval Value} (hx : Pushes M n K C x)
    (hy : Pushes M n K D y) (hz : Pushes M n K E z) :
    Pushes M n K (.label fun otherwise => .label fun done =>
      C ++ (jump c .jumpIfFalse otherwise ++ (D ++ (jump c .jump done ++ (.mark otherwise ++ (E ++ .mark done))))))
      (do if (← x).toBoolean then y else z) := by
  intro st a b ha ⟨otherwise, done, m₁, hC, h₁, m₂, ⟨hi, hm₂⟩, h₂, m₃, hD, h₃, m₄, ⟨hj, hm₄⟩, h₄, m₅,
    ⟨hm₅, hother⟩, h₅, m₆, hE, h₆, hm₆, hdone⟩
  cases hm₂
  cases hm₄
  cases hm₅
  cases hm₆
  subst hdone
  refine (hx st a m₁ ha hC).bind fun v => runs_jumpWhen false hc rfl hi ?_
  cases hv : v.toBoolean with
  | true => exact (hy st _ m₃ (Nat.le_trans ha (Nat.le_trans h₁ h₂)) hD).behind fun w => runs_jump hc hj (.pure rfl)
  | false =>
    subst hother
    exact hz st _ b (Nat.le_trans ha (Nat.le_trans h₁ (Nat.le_trans h₂ h₃))) hE

/-! ## Arguments -/

theorem length_of_evalItems : ∀ (es : List Expr) (W : World) (vs : List Value) (W' : World),
    evalItems h act es W = some (.ok vs, W') → vs.length = es.length
  | [], _, _, _, hv => by
    cases hv
    rfl
  | e :: es, W, vs, W', hv => by
    rw [evalItems, bind_apply] at hv
    match hx : evalExpr h act e W with
    | none => rw [hx] at hv; cases hv
    | some (.error _, _) => rw [hx] at hv; cases hv
    | some (.ok v, V) =>
      simp only [hx, bind_apply] at hv
      match hy : evalItems h act es V with
      | none => rw [hy] at hv; cases hv
      | some (.error _, _) => rw [hy] at hv; cases hv
      | some (.ok ws, _) =>
        rw [hy] at hv
        cases hv
        exact congrArg (· + 1) (length_of_evalItems es V ws _ hy)

theorem length_of_evalArguments (es : Option Expr) (W : World) (vs : List Value) (W' : World)
    (hv : evalArguments h act es W = some (.ok vs, W')) : vs.length = (Expr.argumentList es).length := by
  have hone : ∀ e : Expr, (do return [← evalExpr h act e] : Eval (List Value)) W = some (.ok vs, W') →
      vs.length = 1 := by
    intro e hv
    rw [bind_apply] at hv
    match hx : evalExpr h act e W with
    | none => rw [hx] at hv; cases hv
    | some (.error _, _) => rw [hx] at hv; cases hv
    | some (.ok v, V) => rw [hx] at hv; cases hv; rfl
  cases es with
  | none =>
    cases hv
    rfl
  | some e =>
    cases e
    case sequence items => exact length_of_evalItems items W vs W' hv
    all_goals exact hone _ hv

/-! ## Expressions -/

/-- Calls are allowed for: the host runs what is called, unless nothing is. -/
def Hosted (M : Mode) (n : Nat) (h : Host) (plain : Prop) : Prop := plain ∨ M.Fits ∧ HostSim M n h

theorem Hosted.left {p q : Prop} (hh : Hosted M n h (p ∧ q)) : Hosted M n h p := hh.imp_left And.left

theorem Hosted.right {p q : Prop} (hh : Hosted M n h (p ∧ q)) : Hosted M n h q := hh.imp_left And.right

theorem Hosted.calls (hh : Hosted M n h False) : M.Fits ∧ HostSim M n h := hh.resolve_left id

mutual

/-- **The code of an expression does what evaluating the expression does.** -/
theorem pushes_expr (hc : Suits M K c act) : ∀ e : Expr, Hosted M n h e.Plain →
    Pushes M n K (exprAt c e) (evalExpr h act e)
  | .number x, _ => pushes_constant hc (literal x)
  | .string s, _ => pushes_constant hc (.string s)
  | .boolean b, _ => fun _ => .returns (does_boolean hc b)
  | .null, _ => fun _ => .returns (does_null hc)
  | .identifier id, _ => fun _ => does_load hc id.name
  | .this, _ => fun _ => .returns (does_this hc)
  | .array elements, hh =>
    fun _ => (does_newArray hc _).seq fun made => .bind_pure (does_elements hc made elements 0 _ hh)
  | .object properties, hh =>
    fun _ => (does_newObject hc).seq fun made => .bind_pure (does_properties hc made properties _ hh)
  | .function f, hh => by
    rw [exprAt, evalExpr, hc.strict]
    exact fun _ => does_closure hh.calls.2.linked hc _ rfl
  | .grouping e, hh => pushes_expr hc e hh
  | .unary op e, hh => by
    have he := pushes_expr hc e hh
    have hr := does_reference hc e hh
    cases op <;> rw [exprAt, evalExpr]
    case minus => exact fun st => (he st).seq fun v => does_negate hc v
    case plus => exact fun st => (he st).seq fun v => does_asNumber hc v
    case logicalNot => exact fun st => (he st).seq fun v => .returns (does_not hc v)
    case bitwiseNot => exact fun st => (he st).seq fun v => does_complement hc v
    case typeof => exact does_typeof hc hr he
    case void => exact fun st => (he st).seq fun v => .skip (does_pop hc v) (.returns (does_undefined hc))
    case delete => exact does_deleteAt hc hr he
  | .update op before e, hh => does_update hc op before (does_reference hc e hh)
  | .binary op l r, hh =>
    fun st => (pushes_expr hc l hh.left st).seq fun v => (pushes_expr hc r hh.right _).seq fun w =>
      does_binary hc op v w
  | .logical op l r, hh => by
    have hl := pushes_expr hc l hh.left
    have hr := pushes_expr hc r hh.right
    cases op <;> rw [exprAt, evalExpr]
    · exact does_logical hc .and hl hr
    · exact does_logical hc .or hl hr
  | .assignment op t value, hh => does_assignment hc op (does_reference hc t hh.left) (pushes_expr hc value hh.right)
  | .conditional test x y, hh =>
    does_conditional hc (pushes_expr hc test hh.left) (pushes_expr hc x hh.right.left)
      (pushes_expr hc y hh.right.right)
  | .sequence items, hh => does_sequence hc items hh
  | .call callee arguments, hh => by
    rw [exprAt, evalExpr]
    obtain ⟨hM, hh⟩ := hh.calls
    refine fun st => (does_callee hc (does_reference hc callee (.inr ⟨hM, hh⟩))
      (pushes_expr hc callee (.inr ⟨hM, hh⟩)) st).seq fun p =>
      (does_arguments hc hM hh arguments _).seq_of (length_of_evalArguments arguments) fun args hargs => ?_
    rw [← hargs]
    cases callee.callsEval with
    | true => exact does_callEval hM hc hh p.1 p.2 args callee.describe
    | false => exact does_call hM hc hh p.1 p.2 args callee.describe
  | .member object property, hh =>
    fun st => (pushes_expr hc object hh st).seq fun base =>
      .skip (does_constant hc _) (does_getProperty hc base _)
  | .index object key, hh =>
    fun st => (pushes_expr hc object hh.left st).seq fun base =>
      (pushes_expr hc key hh.right _).seq fun key => does_getProperty hc base key
  | .new (.call callee arguments), hh => by
    rw [exprAt, evalExpr]
    obtain ⟨hM, hh⟩ := hh.calls
    refine fun st => (pushes_expr hc callee (.inr ⟨hM, hh⟩) st).seq fun f =>
      (does_arguments hc hM hh arguments _).seq_of (length_of_evalArguments arguments) fun args hargs => ?_
    rw [← hargs]
    exact does_new hc hh f args
  | .new e, hp => by
    obtain ⟨hM, hh⟩ := hp.calls
    clear hp
    have he : Pushes M n K (exprAt c e ++ emitWith c .new (.count 0)) (do construct h (← evalExpr h act e) []) :=
      fun st => (pushes_expr hc e (.inr ⟨hM, hh⟩) st).seq fun f => does_new hc hh f []
    cases e
    case call callee arguments =>
      rw [exprAt, evalExpr]
      refine fun st => (pushes_expr hc callee (.inr ⟨hM, hh⟩) st).seq fun f =>
        (does_arguments hc hM hh arguments _).seq_of (length_of_evalArguments arguments) fun args hargs => ?_
      rw [← hargs]
      exact does_new hc hh f args
    all_goals exact he

theorem does_reference (hc : Suits M K c act) : ∀ e : Expr, Hosted M n h e.Plain →
    RefDoes M n K (referenceAt c e) (target h act e)
  | .grouping e, hh => does_reference hc e hh
  | .identifier id, _ => by
    rw [referenceAt, target]
    rfl
  | .member object property, hh => ⟨pushes_expr hc object hh, pushes_constant hc _⟩
  | .index object key, hh => ⟨pushes_expr hc object hh.left, pushes_expr hc key hh.right⟩
  | .number _, _ | .string _, _ | .boolean _, _ | .null, _ | .this, _ | .array _, _ | .object _, _ | .function _, _
  | .unary _ _, _ | .update _ _ _, _ | .binary _ _ _, _ | .logical _ _ _, _ | .assignment _ _ _, _
  | .conditional _ _ _, _ | .sequence _, _ | .call _ _, _ | .new _, _ => by
    rw [referenceAt.eq_def, target.eq_def]
    trivial

theorem does_sequence (hc : Suits M K c act) : ∀ es : List Expr, Hosted M n h (itemsPlain es) →
    Pushes M n K (sequenceAt c es) (evalSequence h act es)
  | [], _ => fun _ _ _ _ hl => hl.elim
  | [e], hh => pushes_expr hc e hh.left
  | e :: e' :: es, hh => by
    rw [sequenceAt, evalSequence]
    · exact fun st => (pushes_expr hc e hh.left st).seq fun v => .skip (does_pop hc v)
        (does_sequence hc (e' :: es) hh.right st)
    · simp
    · simp

theorem does_elements (hc : Suits M K c act) (made : ObjectRef) :
    ∀ (es : List (Option Expr)) (i : Nat) (st : List Value), Hosted M n h (elementsPlain es) →
      Does M n K (elementsAt c es i) (evalElements h act made es i) (.object made :: st) fun _ => .object made :: st
  | [], _, _, _ => .nil
  | none :: es, i, st, hh => does_elements hc made es (i + 1) st hh
  | some e :: es, i, st, hh =>
    (pushes_expr hc e hh.left _).seq fun v => (does_defineProperty hc made _ v).seq fun _ =>
      does_elements hc made es (i + 1) st hh.right

theorem does_properties (hc : Suits M K c act) (made : ObjectRef) :
    ∀ (ps : List (String × Expr)) (st : List Value), Hosted M n h (propertiesPlain ps) →
      Does M n K (propertiesAt c ps) (evalProperties h act made ps) (.object made :: st) fun _ => .object made :: st
  | [], _, _ => .nil
  | (name, e) :: ps, st, hh =>
    (pushes_expr hc e hh.left _).seq fun v => (does_defineProperty hc made name v).seq fun _ =>
      does_properties hc made ps st hh.right

theorem does_arguments (hc : Suits M K c act) (hM : M.Fits) (hh : HostSim M n h) :
    ∀ (es : Option Expr) (st : List Value),
      Does M n K (argumentsAt c es) (evalArguments h act es) st fun vs => vs.reverse ++ st
  | none, st => .returns .nil
  | some e, st => by
    have he : Does M n K (exprAt c e) (do return [← evalExpr h act e]) st fun vs => vs.reverse ++ st :=
      .bind_pure (pushes_expr hc e (.inr ⟨hM, hh⟩) st)
    cases e
    case sequence items =>
      rw [argumentsAt, evalArguments]
      exact does_items hc hM hh items st
    all_goals exact he

theorem does_items (hc : Suits M K c act) (hM : M.Fits) (hh : HostSim M n h) :
    ∀ (es : List Expr) (st : List Value),
      Does M n K (itemsAt c es) (evalItems h act es) st fun vs => vs.reverse ++ st
  | [], st => .returns .nil
  | e :: es, st => by
    rw [itemsAt, evalItems]
    refine (pushes_expr hc e (.inr ⟨hM, hh⟩) st).seq fun v => .bind_pure ?_
    simp only [List.reverse_cons, List.append_assoc, List.singleton_append]
    exact does_items hc hM hh es (v :: st)

end

theorem does_expr (hM : M.Fits) (hc : Suits M K c act) (hh : HostSim M n h) (e : Expr) :
    Pushes M n K (exprAt c e) (evalExpr h act e) := pushes_expr hc e (.inr ⟨hM, hh⟩)

end

end ScriptEngine
