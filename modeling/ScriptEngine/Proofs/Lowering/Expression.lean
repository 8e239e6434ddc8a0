/-
Expressions lay out their code. Main statement: `lays_expr`.
-/
import ScriptEngine.Proofs.Lowering.Step

namespace ScriptEngine.Lowering

open Layout (Point Code Setting)

/-- The code of nested functions is lowered in the scopes that are there, which stay. -/
def InnerLays (o : LoweringOptions) (inner : FunctionLowering) : Prop :=
  ∀ ⦃f isExpression s strict a u a' env⦄, ScopeArena.Sees a s env →
    inner f isExpression s strict a = .ok (u, a') →
    a.Extends a' ∧ Lowered o env ⟨f, isExpression, strict⟩ u

/-- A region of a layout is what became of a construct around lowered code. -/
inductive RegionFits (B : Builder) (a : ScopeArena) : Region → Layout.Region → Prop
  | breakable (labels kind breakTo continueTo) :
    RegionFits B a (.breakable labels kind breakTo continueTo)
      (.breakable labels kind (B.target breakTo) (continueTo.map B.target))
  | scope : RegionFits B a .scope .scope
  | plain : RegionFits B a (.attempt none) (.attempt none)
  | finalized {x C} (h : ∀ S, Lays B a S x S C) : RegionFits B a (.attempt (some x)) (.attempt (some C))

theorem RegionFits.mono {B : Builder} {a a' : ScopeArena} (ha : a.Extends a') {r r'} (h : RegionFits B a r r') :
    RegionFits B a' r r' := by
  cases h with
  | breakable => exact .breakable ..
  | scope => exact .scope
  | plain => exact .plain
  | finalized h => exact .finalized fun S => (h S).mono ha

inductive RegionsFit (B : Builder) (a : ScopeArena) : List Region → List Layout.Region → Prop
  | nil : RegionsFit B a [] []
  | cons {r r' rs rs'} : RegionFits B a r r' → RegionsFit B a rs rs' → RegionsFit B a (r :: rs) (r' :: rs')

theorem RegionsFit.mono {B : Builder} {a a' : ScopeArena} (ha : a.Extends a') {rs rs'}
    (h : RegionsFit B a rs rs') : RegionsFit B a' rs rs' := by
  induction h with
  | nil => exact .nil
  | cons hr _ ih => exact .cons (hr.mono ha) ih

/-- A setting is what a context becomes in the unit that is finished from a builder. -/
structure Fits (B : Builder) (a : ScopeArena) (ctx : Context) (c : Setting) : Prop where
  unit : Finished B c.unit
  options : c.options = ctx.options
  sees : a.Sees ctx.scope c.env
  strict : c.strict = ctx.strict
  completion : c.completion = ctx.completion
  regions : RegionsFit B a ctx.regions c.regions

variable {B : Builder} {a : ScopeArena} {S S' : Label → Prop} {ctx : Context} {c : Setting}

/-! ## Names -/

namespace Lays

theorem resolve (hc : Fits B a ctx c) (name : String) {f : Resolution → Lowering Unit} {C : Code}
    (hf : Lays B a S (f (c.env.resolve name)) S' C) : Lays B a S (resolve ctx name >>= f) S' C := by
  intro st st' ha hok hp h
  have hres : st.scopes.resolve ctx.scope name = c.env.resolve name := (hc.sees.mono ha).resolve_eq name
  refine hf st st' ha hok hp ?_
  rw [← hres]
  exact h

theorem slotOperand {d i : Nat} {f : Operand → Lowering Unit} {C : Code}
    (hf : Lays B a S (f (.slot d i)) S' C) : Lays B a S (slotOperand d i >>= f) S' C := by
  unfold Lowering.slotOperand
  split
  · simpa using hf
  · exact throws

theorem named (hc : Fits B a ctx c) (op : Opcode) (name : String) :
    Lays B a S (do Lowering.emitWith op (.property (← Lowering.stringConstant name))) S (Layout.named c op name) := by
  refine (stringConstant name fun k => emitWith hc.unit rfl op (.property k)).weaken (fun _ h => h) ?_
  rintro p q ⟨k, hk, h⟩
  exact ⟨k, hc.unit.constants ▸ hk, h⟩

theorem named_seq (hc : Fits B a ctx c) (op : Opcode) (name : String) {y : Lowering Unit} {D : Code}
    (hy : Lays B a S y S' D) :
    Lays B a S (do
      let k ← Lowering.stringConstant name
      Lowering.emitWith op (.property k)
      y) S' (Layout.named c op name ++ D) := by
  have h := (named hc op name).seq (y := fun _ => y) hy
  simpa only [bind_assoc] using h

theorem pushString (hc : Fits B a ctx c) (s : String) :
    Lays B a S (pushString s) S (Layout.constant c (.string s)) := by
  refine (stringConstant s fun k => emitWith hc.unit rfl .loadConst (.constant k)).weaken (fun _ h => h) ?_
  rintro p q ⟨k, hk, h⟩
  exact ⟨k, hc.unit.constants ▸ hk, h⟩

theorem load (hc : Fits B a ctx c) (name : String) : Lays B a S (load ctx name) S (Layout.load c name) := by
  refine resolve hc name ?_
  unfold Layout.load
  cases c.env.resolve name with
  | slot d i => exact slotOperand (emitSlot hc.unit rfl .loadSlot name d i)
  | byName => exact named hc .loadName name

theorem store (hc : Fits B a ctx c) (name : String) : Lays B a S (store ctx name) S (Layout.store c name) := by
  refine resolve hc name ?_
  unfold Layout.store
  cases c.env.resolve name with
  | slot d i => exact slotOperand (emitSlot hc.unit rfl .storeSlot name d i)
  | byName =>
    rw [hc.strict]
    exact named hc _ name

theorem pushClosure (hc : Fits B a ctx c) {inner : FunctionLowering} (hin : InnerLays ctx.options inner)
    (f : FunctionTree) (isExpression : Bool) :
    Lays B a S (pushClosure inner ctx f isExpression) S (Layout.closure c ⟨f, isExpression, c.strict⟩) := by
  intro st st' ha hok hp h
  obtain ⟨u, mid, h1, h2⟩ := bind_ok h
  obtain ⟨h1, hb⟩ := onScopes_ok h1
  obtain ⟨hext, hlow⟩ := hin (hc.sees.mono ha) h1
  obtain ⟨k, mid', h3, h4⟩ := bind_ok h2
  obtain ⟨h3, hs⟩ := onBuilder_ok h3
  have hk := Builder.Request.granted (q := .function u) h3
  obtain ⟨rfl, hb'⟩ := Builder.Request.take_of_run (q := .function u) rfl h3
  rw [hb] at hk
  have hok' := hk.ok hok
  have l := emitWith hc.unit (c := c) rfl .closure (.function mid.builder.functions.size) mid' st'
    (by rw [hs]; exact ha.trans hext) hok' (hp.of_labels_eq hk.labels) h4
  have hgains : Gains st.builder st'.builder := by
    intro k v hv
    have hst : st'.builder = mid'.builder.emit ⟨.closure, some (.function mid.builder.functions.size)⟩ := by
      cases h4
      rfl
    have hv : (mid.builder.functions.push u)[k]? = some v := by rwa [hst, hb'] at hv
    rw [Array.getElem?_push] at hv
    split at hv
    next hk =>
      cases hv
      refine .inr ⟨⟨_, _, _, hlow⟩, mid'.builder.size, ?_, ?_, fun x hx => ?_⟩
      · rw [hst]
        simp [Builder.emit, Builder.size]
      · rw [hst, hk]
        simp [Builder.emit, Builder.size]
      · rw [hst] at hx
        exact Nat.ne_of_lt (hok'.fixup_lt x hx)
    next => exact .inl (hb ▸ hv)
  refine ⟨hext.trans (hs ▸ l.scopes), l.ok, l.pending, hk.sub.trans l.sub,
    (Builder.Settles.of_labels_eq hk.labels).trans hk.sub l.settles, hgains, fun hB => ?_⟩
  refine ⟨mid.builder.functions.size, u, ?_, ?_, ?_⟩
  · rw [hc.unit.functions]
    exact hB.sub.functions (l.sub.functions (hb ▸ hk.holds hok))
  · rw [hc.options, hc.strict]
    exact hlow
  · have hcode := l.code hB
    have hhere : here mid'.builder = here st.builder := by
      rw [here, here, hb', hb]
      rfl
    rwa [hhere] at hcode

end Lays

/-! ## References -/

/-- A reference of a layout is what became of a reference of lowering. -/
inductive RefLays (B : Builder) (a : ScopeArena) : Reference → Layout.Reference → Prop
  | name (name) : RefLays B a (.variable name) (.name name)
  | property {o k O K} (ho : ∀ S, Lays B a S o S O) (hk : ∀ S, Lays B a S k S K) :
    RefLays B a (.property o k) (.property O K)
  | value : RefLays B a .value .value

variable {r : Reference} {r' : Layout.Reference} {x : Lowering Unit} {C : Code}

theorem lays_typeof (hc : Fits B a ctx c) (hr : RefLays B a r r') (hx : Lays B a S x S C) :
    Lays B a S (lowerTypeof ctx r x) S (Layout.typeofAt c r' C) := by
  cases hr with
  | name name =>
    simp only [lowerTypeof, Layout.typeofAt]
    refine Lays.resolve hc name ?_
    cases c.env.resolve name with
    | slot d i => exact (Lays.load hc name).seq (Lays.emit hc.unit rfl _)
    | byName => exact Lays.named_seq hc _ name (Lays.emit hc.unit rfl _)
  | property ho hk => exact hx.seq (Lays.emit hc.unit rfl _)
  | value => exact hx.seq (Lays.emit hc.unit rfl _)

theorem lays_delete (hc : Fits B a ctx c) (hr : RefLays B a r r') (hx : Lays B a S x S C) :
    Lays B a S (lowerDelete ctx r x) S (Layout.deleteAt c r' C) := by
  cases hr with
  | name name =>
    simp only [lowerDelete, Layout.deleteAt]
    refine Lays.resolve hc name ?_
    cases c.env.resolve name with
    | slot d i => exact Lays.emitKept hc.unit rfl name
    | byName => exact Lays.named hc _ name
  | property ho hk => exact (ho S).seq ((hk S).seq (Lays.emit hc.unit rfl _))
  | value => exact hx.seq ((Lays.emit hc.unit rfl _).seq (Lays.emit hc.unit rfl _))

theorem lays_assignment (hc : Fits B a ctx c) (op : Option BinaryOp) (hr : RefLays B a r r')
    (hx : Lays B a S x S C) : Lays B a S (lowerAssignment ctx op r x) S (Layout.assignmentAt c op r' C) := by
  cases hr with
  | name name =>
    cases op with
    | some op =>
      exact (Lays.load hc name).seq (hx.seq ((Lays.emit hc.unit rfl _).seq (Lays.store hc name)))
    | none => exact hx.seq (Lays.store hc name)
  | property ho hk =>
    cases op with
    | some op =>
      exact (ho S).seq ((hk S).seq ((Lays.emit hc.unit rfl _).seq ((Lays.emit hc.unit rfl _).seq
        (hx.seq ((Lays.emit hc.unit rfl _).seq (Lays.emit hc.unit rfl _))))))
    | none => exact (ho S).seq ((hk S).seq (hx.seq (Lays.emit hc.unit rfl _)))
  | value => exact Lays.throws

theorem lays_callee (hc : Fits B a ctx c) (hr : RefLays B a r r') (hx : Lays B a S x S C) :
    Lays B a S (lowerCallee ctx r x) S (Layout.calleeAt c r' C) := by
  cases hr with
  | name name =>
    simp only [lowerCallee, Layout.calleeAt]
    refine Lays.resolve hc name ?_
    cases c.env.resolve name with
    | slot d i => exact (Lays.load hc name).seq (Lays.emit hc.unit rfl _)
    | byName => exact Lays.named hc _ name
  | property ho hk =>
    exact (ho S).seq ((Lays.emit hc.unit rfl _).seq ((hk S).seq ((Lays.emit hc.unit rfl _).seq
      (Lays.emit hc.unit rfl _))))
  | value => exact hx.seq (Lays.emit hc.unit rfl _)

theorem lays_update (hc : Fits B a ctx c) (op : UpdateOp) (before : Bool) (hr : RefLays B a r r') :
    Lays B a S (lowerUpdate ctx op before r) S (Layout.updateAt c op before r') := by
  have emit : ∀ o, Lays B a S (emit o) S (Layout.emit c o) := Lays.emit hc.unit rfl
  have emitWith : ∀ o k, Lays B a S (emitWith o k) S (Layout.emitWith c o k) := Lays.emitWith hc.unit rfl
  have hone : ∀ {f : Nat → Lowering Unit}, (∀ k, Lays B a S (f k) S
        (Layout.updateWith c (Layout.emitWith c .loadConst (.constant k)) op before r')) →
      Lays B a S (numberConstant 1.0 >>= f) S (Layout.updateAt c op before r') := by
    intro f hf
    refine (Lays.numberConstant 1.0 hf).weaken (fun _ h => h) ?_
    rintro p q ⟨k, hk, h⟩
    exact Layout.updateWith_mono c (fun _ _ h => ⟨k, hc.unit.constants ▸ hk, h⟩) op before r' h
  refine hone fun k => ?_
  cases hr with
  | value => exact Lays.throws
  | name name =>
    cases before with
    | true =>
      cases op <;> exact (Lays.load hc name).seq ((emit _).seq ((emitWith _ _).seq
        ((emit _).seq (Lays.store hc name).seq_pure)))
    | false =>
      cases op <;> exact (Lays.load hc name).seq ((emit _).seq ((emit _).seq ((emitWith _ _).seq
        ((emit _).seq ((Lays.store hc name).seq (emit _))))))
  | property ho hk =>
    cases before with
    | true =>
      cases op <;> exact (ho S).seq ((hk S).seq ((emit _).seq ((emit _).seq ((emit _).seq
        ((emitWith _ _).seq ((emit _).seq (emit _)))))))
    | false =>
      cases op <;> exact (ho S).seq ((hk S).seq ((emit _).seq ((emit _).seq ((emit _).seq
        (Lays.newTemporary fun old => (emit _).seq ((emitWith _ _).seq ((emitWith _ _).seq
          ((emit _).seq ((emit _).seq ((emit _).seq (emitWith _ _)))))))))))

/-! ## Expressions -/

theorem Lays.argumentCount {n : Nat} {f : Nat → Lowering Unit} {C : Code} (hf : Lays B a S (f n) S' C) :
    Lays B a S (argumentCount n >>= f) S' C := by
  unfold Lowering.argumentCount
  split
  · simpa using hf
  · exact throws

theorem lays_call (hc : Fits B a ctx c) (op : Opcode) (n : Nat) (description : String) :
    Lays B a S (do
      let k ← stringConstant description
      emitWith op (.call n k)) S (Layout.callAt c op n description) := by
  refine (Lays.stringConstant _ fun k => Lays.emitWith hc.unit rfl op (.call n k)).weaken (fun _ h => h) ?_
  rintro p q ⟨k, hk, h⟩
  exact ⟨k, hc.unit.constants ▸ hk, h⟩

variable {inner : FunctionLowering}

mutual

/-- **The code of an expression is laid out from where lowering began to where it ended.** -/
theorem lays_expr (hc : Fits B a ctx c) (hin : InnerLays ctx.options inner) : ∀ {S} (e : Expr),
    Lays B a S (lowerExpr inner ctx e) S (Layout.exprAt c e)
  | S, .number n => by
    rw [lowerExpr, Layout.exprAt]
    refine (Lays.numberConstant n fun k => Lays.emitWith hc.unit rfl .loadConst (.constant k)).weaken
      (fun _ h => h) ?_
    rintro p q ⟨k, hk, h⟩
    exact ⟨k, hc.unit.constants ▸ hk, h⟩
  | S, .string s => Lays.pushString hc s
  | S, .boolean b => Lays.boolean hc.unit rfl b
  | S, .null => Lays.emit hc.unit rfl _
  | S, .identifier id => Lays.load hc id.name
  | S, .this => Lays.emit hc.unit rfl _
  | S, .array elements => by
    rw [lowerExpr, Layout.exprAt]
    split
    · exact (Lays.emitWith hc.unit rfl _ _).seq (lays_elements hc hin elements 0)
    · exact Lays.throws_bind
  | S, .object properties => (Lays.emit hc.unit rfl _).seq (lays_properties hc hin properties)
  | S, .function f => Lays.pushClosure hc hin f true
  | S, .grouping e => lays_expr hc hin e
  | S, .unary op e => by
    have he := lays_expr hc hin (S := S) e
    have hr := lays_reference hc hin e
    cases op <;> rw [lowerExpr, Layout.exprAt]
    case minus => exact he.seq (Lays.emit hc.unit rfl _)
    case plus => exact he.seq (Lays.emit hc.unit rfl _)
    case logicalNot => exact he.seq (Lays.emit hc.unit rfl _)
    case bitwiseNot => exact he.seq (Lays.emit hc.unit rfl _)
    case typeof => exact lays_typeof hc hr he
    case void => exact he.seq ((Lays.emit hc.unit rfl _).seq (Lays.emit hc.unit rfl _))
    case delete => exact lays_delete hc hr he
  | S, .update op before e => lays_update hc op before (lays_reference hc hin e)
  | S, .binary op l r => (lays_expr hc hin l).seq ((lays_expr hc hin r).seq (Lays.emit hc.unit rfl _))
  | S, .logical op l r => by
    cases op <;> rw [lowerExpr, Layout.exprAt] <;>
      exact Lays.newLabel fun done hnew => (lays_expr hc hin l).seq ((Lays.emitJump hc.unit rfl _ done).seq
        ((lays_expr hc hin r).seq ((Lays.mark (.inl rfl)).pending (by grind))))
  | S, .assignment op target value => lays_assignment hc op (lays_reference hc hin target) (lays_expr hc hin value)
  | S, .conditional test x y => by
    rw [lowerExpr, Layout.exprAt]
    refine Lays.newLabel fun otherwise hnew => Lays.newLabel fun done hnew' =>
      (lays_expr hc hin test).seq ((Lays.emitJump hc.unit rfl _ otherwise).seq ((lays_expr hc hin x).seq
        ((Lays.emitJump hc.unit rfl _ done).seq ((Lays.mark (.inr (.inl rfl))).seq ((lays_expr hc hin y).seq
          ((Lays.mark ?_).pending ?_))))))
    · grind
    · grind
  | S, .sequence items => lays_sequence hc hin items
  | S, .call callee arguments =>
    (lays_callee hc (lays_reference hc hin callee) (lays_expr hc hin callee)).seq
      (lays_arguments hc hin arguments (lays_call hc _ _ _))
  | S, .member object property => (lays_expr hc hin object).seq ((Lays.pushString hc _).seq (Lays.emit hc.unit rfl _))
  | S, .index object key => (lays_expr hc hin object).seq ((lays_expr hc hin key).seq (Lays.emit hc.unit rfl _))
  | S, .new (.call callee arguments) =>
    (lays_expr hc hin callee).seq (lays_arguments hc hin arguments (Lays.emitWith hc.unit rfl _ _))
  | S, .new e => by
    have he := (lays_expr hc hin (S := S) e).seq (y := fun _ => emitWith .new (.count 0))
      (Lays.emitWith hc.unit rfl .new (.count 0))
    cases e
    case call callee arguments =>
      rw [lowerExpr, Layout.exprAt]
      exact (lays_expr hc hin callee).seq (lays_arguments hc hin arguments (Lays.emitWith hc.unit rfl _ _))
    all_goals exact he

theorem lays_reference (hc : Fits B a ctx c) (hin : InnerLays ctx.options inner) : ∀ e : Expr,
    RefLays B a (reference inner ctx e) (Layout.referenceAt c e)
  | .grouping e => lays_reference hc hin e
  | .identifier id => .name id.name
  | .member object property => .property (fun _ => lays_expr hc hin object) fun _ => Lays.pushString hc property.name
  | .index object key => .property (fun _ => lays_expr hc hin object) fun _ => lays_expr hc hin key
  | .number _ | .string _ | .boolean _ | .null | .this | .array _ | .object _ | .function _ | .unary _ _
  | .update _ _ _ | .binary _ _ _ | .logical _ _ _ | .assignment _ _ _ | .conditional _ _ _ | .sequence _
  | .call _ _ | .new _ => .value

theorem lays_sequence (hc : Fits B a ctx c) (hin : InnerLays ctx.options inner) : ∀ {S} (es : List Expr),
    Lays B a S (lowerSequence inner ctx es) S (Layout.sequenceAt c es)
  | S, [] => Lays.throws
  | S, [e] => lays_expr hc hin e
  | S, e :: e' :: es => by
    rw [lowerSequence, Layout.sequenceAt]
    · exact (lays_expr hc hin e).seq ((Lays.emit hc.unit rfl _).seq (lays_sequence hc hin (e' :: es)))
    · simp
    · simp

theorem lays_elements (hc : Fits B a ctx c) (hin : InnerLays ctx.options inner) :
    ∀ {S} (es : List (Option Expr)) (i : Nat),
      Lays B a S (lowerElements inner ctx es i) S (Layout.elementsAt c es i)
  | S, [], i => Lays.pure
  | S, none :: es, i => lays_elements hc hin es (i + 1)
  | S, some e :: es, i => (lays_expr hc hin e).seq (Lays.named_seq hc _ _ (lays_elements hc hin es (i + 1)))

theorem lays_properties (hc : Fits B a ctx c) (hin : InnerLays ctx.options inner) :
    ∀ {S} (ps : List (String × Expr)), Lays B a S (lowerProperties inner ctx ps) S (Layout.propertiesAt c ps)
  | S, [] => Lays.pure
  | S, (name, e) :: ps => (lays_expr hc hin e).seq (Lays.named_seq hc _ _ (lays_properties hc hin ps))

theorem lays_arguments (hc : Fits B a ctx c) (hin : InnerLays ctx.options inner) :
    ∀ {S S'} (arguments : Option Expr) {f : Nat → Lowering Unit} {D : Code},
      Lays B a S (f (Expr.argumentList arguments).length) S' D →
      Lays B a S (lowerArguments inner ctx arguments >>= f) S' (Layout.argumentsAt c arguments ++ D)
  | S, S', none, f, D, hf => hf.pure_seq
  | S, S', some (.sequence items), f, D, hf => by
    rw [lowerArguments, Layout.argumentsAt, bind_assoc]
    exact (lays_items hc hin items).seq (Lays.argumentCount hf)
  | S, S', some e, f, D, hf => by
    have he := lays_expr hc hin (S := S) e
    cases e
    case sequence items =>
      rw [lowerArguments, Layout.argumentsAt, bind_assoc]
      exact (lays_items hc hin items).seq (Lays.argumentCount hf)
    all_goals
      rw [lowerArguments, Layout.argumentsAt, bind_assoc]
      · simp only [pure_bind]
        exact he.seq hf
      all_goals simp

theorem lays_items (hc : Fits B a ctx c) (hin : InnerLays ctx.options inner) : ∀ {S} (es : List Expr),
    Lays B a S (lowerItems inner ctx es) S (Layout.itemsAt c es)
  | S, [] => Lays.pure
  | S, e :: es => (lays_expr hc hin e).seq (lays_items hc hin es)

end

theorem lays_assignTop (hc : Fits B a ctx c) (hin : InnerLays ctx.options inner) (e : Expr) :
    Lays B a S (assignTop inner ctx e) S (Layout.assignTopAt c e) := by
  have hr := lays_reference hc hin e
  unfold assignTop Layout.assignTopAt
  generalize reference inner ctx e = r, Layout.referenceAt c e = r' at hr
  cases hr with
  | name name => exact Lays.store hc name
  | property ho hk =>
    exact Lays.newTemporary fun value => (Lays.emitWith hc.unit rfl _ _).seq ((ho S).seq ((hk S).seq
      ((Lays.emitWith hc.unit rfl _ _).seq (Lays.emit hc.unit rfl _))))
  | value => exact Lays.throws

end ScriptEngine.Lowering
