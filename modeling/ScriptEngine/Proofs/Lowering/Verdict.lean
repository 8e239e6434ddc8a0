/-
Lowering a tree fails with its early fault, unless a pool is full, and comes to the
same without the places in the tree and without the check of the stack. Places are
remembered where names were declared first and in the fault of the check, and
nothing that is emitted comes of them. A finalizer that is written out more than once, or a loop
whose body is, is at fault in all its copies or in none, so the options make no
difference. `Judged` compares the two ways to lower a step. Main statements:
`lowerProgram_early` and `lowerProgram_agrees`.
-/
import Mathlib.Data.List.Forall2
import ScriptEngine.Proofs.Lowering.Discipline
import ScriptEngine.Proofs.Lowering.Early
import ScriptEngine.Proofs.Scope.Placeless

namespace ScriptEngine

variable {p : Program}

/-- A pool of a unit, or the places for its temporaries and slots, are used up. -/
def Fault.isFull : Fault → Bool
  | .limit .locals | .limit .constants | .limit .functions => true
  | _ => false

namespace Lowering

def State.placeless (st : State) : State := ⟨st.scopes.placeless, st.builder⟩

/-! ## Verdicts -/

/-- The fault is about the lowered unit and not about the tree. -/
def Apart (f : Fault) : Prop := f.isFull = true ∨ f.kind = .internalError

/-- What comes out is the fault if there is one and something if there is none; faults that are not
about the tree aside. -/
def Verdict {α : Type} (v : Option Fault) : Except Fault α → Prop
  | .ok _ => v = none
  | .error f => Apart f ∨ v = some f

/-- The first result has the verdict, and the second is the same without places, which `g` takes out of
what is carried along; unless the check of the stack has failed in the first. -/
structure Agrees (g : σ → σ) (v : Option Fault) (r r' : Except Fault (α × σ)) : Prop where
  verdict : Verdict v r
  forgets : r' = r.map (Prod.map id g) ∨ ∃ span found expected, r = .error (.internal (.unbalanced span found expected))

namespace Agrees

variable {g : σ → σ} {v w : Option Fault} {r r' : Except Fault (α × σ)}

theorem ok (a : α) (s : σ) : Agrees g none (.ok (a, s)) (.ok (a, g s)) := ⟨rfl, .inl rfl⟩

theorem error (f : Fault) : Agrees g (some f) (.error f : Except Fault (α × σ)) (.error f) := ⟨.inr rfl, .inl rfl⟩

theorem apart {f : Fault} (hf : Apart f) : Agrees g v (.error f : Except Fault (α × σ)) (.error f) := ⟨.inl hf, .inl rfl⟩

theorem bind {g' : τ → τ} {k k' : α × σ → Except Fault (β × τ)} (hr : Agrees g v r r')
    (hk : ∀ a s, Agrees g' w (k (a, s)) (k' (a, g s))) : Agrees g' (v.or w) (r >>= k) (r' >>= k') := by
  obtain ⟨hverdict, hforgets⟩ := hr
  cases r with
  | error f =>
    refine ⟨hverdict.imp_right fun h => by rw [h]; rfl, hforgets.imp (fun h => by rw [h]; rfl) ?_⟩
    rintro ⟨span, found, expected, h⟩
    exact ⟨span, found, expected, congrArg Except.error (Except.error.inj h)⟩
  | ok p =>
    have hv : v = none := hverdict
    obtain rfl | ⟨_, _, _, h⟩ := hforgets
    · rw [hv]
      exact hk p.1 p.2
    · cases h

theorem fst {g' : τ → τ} {k k' : α × σ → Except Fault (β × τ)} (hr : Agrees g v r r')
    (hk : ∀ a s, Agrees g' none (k (a, s)) (k' (a, g s))) : Agrees g' v (r >>= k) (r' >>= k') := by
  have h := hr.bind hk
  rwa [Option.or_none] at h

end Agrees

/-- From the state without places the second step agrees with the first. -/
def Judged (v : Option Fault) (x y : Lowering α) : Prop := ∀ st, Agrees State.placeless v (x st) (y st.placeless)

/-- A step without a fault that places do not matter to. -/
class Neutral (x : Lowering α) : Prop where
  judged : Judged none x x

namespace Judged

variable {v w : Option Fault} {x y : Lowering α} {k l : α → Lowering β}

theorem refl (x : Lowering α) [hx : Neutral x] : Judged none x x := hx.judged

theorem bind (hx : Judged v x y) (hk : ∀ a, Judged w (k a) (l a)) : Judged (v.or w) (x >>= k) (y >>= l) := fun st =>
  (hx st).bind fun a s => hk a s

theorem step (x : Lowering α) [hx : Neutral x] (hk : ∀ a, Judged v (k a) (l a)) : Judged v (x >>= k) (x >>= l) :=
  hx.judged.bind hk

theorem fst (hx : Judged v x y) (hk : ∀ a, Judged none (k a) (l a)) : Judged v (x >>= k) (y >>= l) := fun st =>
  (hx st).fst fun a s => hk a s

theorem last (hx : Judged v x y) (k : α → Lowering β) [hk : ∀ a, Neutral (k a)] : Judged v (x >>= k) (y >>= k) :=
  hx.fst fun a => (hk a).judged

theorem throws (f : Fault) : Judged (some f) (throw f : Lowering α) (throw f) := fun _ => .error f

theorem throws_bind (f : Fault) (k l : α → Lowering β) : Judged (some f) (throw f >>= k) (throw f >>= l) := fun _ =>
  .error f

theorem ite (c : Bool) {x' y' : Lowering α} (hx : Judged v x y) (hx' : Judged v x' y') :
    Judged v (if c then x else x') (if c then y else y') := by
  cases c
  · exact hx'
  · exact hx

theorem of_eq (hx : Judged v x y) (h : v = w) : Judged w x y := h ▸ hx

end Judged

namespace Neutral

instance pure (a : α) : Neutral (pure a) := ⟨fun st => .ok a st⟩

instance bind (x : Lowering α) (k : α → Lowering β) [hx : Neutral x] [hk : ∀ a, Neutral (k a)] : Neutral (x >>= k) :=
  ⟨hx.judged.bind fun a => (hk a).judged⟩

instance modifyBuilder (f : Builder → Builder) : Neutral (modifyBuilder f) := ⟨fun _ => .ok () _⟩

theorem request (q : Builder.Request) : Neutral (onBuilder q.run) := by
  refine ⟨?_⟩
  rintro ⟨scopes, builder⟩
  have h := q.outcome builder
  simp only [onBuilder, State.placeless]
  generalize q.run builder = r at h
  cases h with
  | found | taken => exact .ok _ (State.mk scopes _)
  | full =>
    refine .apart (.inl ?_)
    cases q <;> rfl

instance emit (op : Opcode) : Neutral (emit op) := modifyBuilder _

instance emitWith (op : Opcode) (operand : Operand) : Neutral (emitWith op operand) := modifyBuilder _

instance emitSlot (op : Opcode) (name : String) (operand : Operand) : Neutral (emitSlot op name operand) :=
  modifyBuilder _

instance emitKept (name : String) : Neutral (emitKept name) := modifyBuilder _

instance emitJump (op : Opcode) (label : Label) : Neutral (emitJump op label) := modifyBuilder _

instance newLabel : Neutral newLabel := ⟨fun _ => .ok _ _⟩

instance mark (label : Label) : Neutral (mark label) := modifyBuilder _

instance stackDepth : Neutral stackDepth := ⟨fun _ => .ok _ _⟩

instance newTemporary : Neutral newTemporary := request .temporary

instance numberConstant (n : Float) : Neutral (numberConstant n) := request (.number n.toBits)

instance stringConstant (s : String) : Neutral (stringConstant s) := request (.string s)

instance addFunction (u : CodeUnit) : Neutral (addFunction u) := request (.function u)

instance resolve (ctx : Context) (name : String) : Neutral (resolve ctx name) := by
  refine ⟨fun st => ?_⟩
  have h : st.scopes.placeless.resolve ctx.scope name = st.scopes.resolve ctx.scope name :=
    ScopeArena.resolve_placeless _ _ _
  exact ⟨rfl, .inl (congrArg (fun r => Except.ok (r, st.placeless)) h)⟩

instance slotOperand (depth index : Nat) : Neutral (slotOperand depth index) := by
  unfold Lowering.slotOperand
  split
  · infer_instance
  · exact ⟨fun _ => .apart (.inl rfl)⟩

instance load (ctx : Context) (name : String) : Neutral (load ctx name) := by
  refine ⟨Judged.step _ fun r => ?_⟩
  cases r <;> exact Judged.refl _

instance store (ctx : Context) (name : String) : Neutral (store ctx name) := by
  refine ⟨Judged.step _ fun r => ?_⟩
  cases r <;> exact Judged.refl _

instance pushString (s : String) : Neutral (pushString s) := by
  unfold Lowering.pushString
  infer_instance

end Neutral

/-! ## Scopes and functions -/

theorem judged_onScopes {v : Option Fault} {f g : ScopeArena → Except Fault (α × ScopeArena)}
    (h : ∀ a, Agrees ScopeArena.placeless v (f a) (g a.placeless)) : Judged v (onScopes f) (onScopes g) := by
  rintro ⟨scopes, builder⟩
  obtain ⟨hverdict, hforgets⟩ := h scopes
  simp only [onScopes, State.placeless]
  cases hf : f scopes with
  | ok p =>
    rw [hf] at hverdict hforgets
    obtain h | ⟨_, _, _, h⟩ := hforgets
    · rw [h]
      exact ⟨hverdict, .inl rfl⟩
    · cases h
  | error e =>
    rw [hf] at hverdict hforgets
    obtain h | ⟨span, found, expected, h⟩ := hforgets
    · rw [h]
      exact ⟨hverdict, .inl rfl⟩
    · exact ⟨hverdict, .inr ⟨span, found, expected, congrArg Except.error (Except.error.inj h)⟩⟩

instance Neutral.withScope (parent : ScopeRef) : Neutral (withScope parent) := by
  refine ⟨judged_onScopes fun a => ?_⟩
  rw [ScopeArena.push_placeless]
  exact .ok _ _

theorem declareCatch_placeless (a : ScopeArena) (s : ScopeRef) (name : String) (span : Span) :
    a.placeless.declareCatch s name .nowhere = (a.declareCatch s name span).map (Prod.map id ScopeArena.placeless) := by
  have hfirst : (a.placeless.get s).bindings.entries[0]? =
      ((a.get s).bindings.entries[0]?).map Variable.placeless := by
    rw [ScopeArena.get_placeless]
    simp [Scope.placeless, BindingTable.placeless]
  have hkind : (a.placeless.get s).kind = (a.get s).kind := by rw [ScopeArena.get_placeless]; rfl
  simp only [ScopeArena.declareCatch, hkind, hfirst, ScopeArena.declareIn_placeless a s name none span]
  cases (a.get s).bindings.entries[0]? <;> cases (a.get s).kind <;> rfl

theorem judged_bindingScope (parent : ScopeRef) (id : Identifier) :
    Judged none (bindingScope parent .catchClause id) (bindingScope parent .catchClause id.placeless) := by
  refine judged_onScopes fun a => ?_
  obtain ⟨p, hp⟩ := declareCatch_push a (some parent) .static (.inl rfl) id.name id.span
  have hp' := declareCatch_placeless (a.push (some parent) .catchClause .static).2
    (a.push (some parent) .catchClause .static).1 id.name id.span
  simp only [ScopeArena.push_placeless, Identifier.placeless, hp', hp]
  exact .ok _ _

/-- Functions have the given faults, and agree with and without places. -/
def Judges (V : FunctionTree → Option Fault) (inner inner' : FunctionLowering) : Prop :=
  ∀ f isExpression s strict a,
    Agrees ScopeArena.placeless (V f) (inner f isExpression s strict a) (inner' f.placeless isExpression s strict a.placeless)

/-- The options with the check of the stack left out or as it was. -/
abbrev beside (o : LoweringOptions) (b : Bool) : LoweringOptions := { o with checkBalance := b && o.checkBalance }

/-- The context in other constructs, with the check left out or as it was. -/
abbrev Context.beside (ctx : Context) (b : Bool) (rs : List Region) : Context :=
  { ctx with options := Lowering.beside ctx.options b, regions := rs }

variable {V : FunctionTree → Option Fault} {inner inner' : FunctionLowering}

theorem judged_pushClosure (hi : Judges V inner inner') (ctx : Context) (f : FunctionTree) (isExpression : Bool) :
    Judged (V f) (pushClosure inner ctx f isExpression) (pushClosure inner' ctx f.placeless isExpression) :=
  (judged_onScopes fun a => hi f isExpression ctx.scope ctx.strict a).last _

/-! ## Expressions -/

inductive RefJudged : Refers → Reference → Reference → Prop
  | name (name : String) : RefJudged .variable (.variable name) (.variable name)
  | property {v w : Option Fault} {o o' k k' : Lowering Unit} (ho : Judged v o o') (hk : Judged w k k') :
    RefJudged (.property v w) (.property o k) (.property o' k')
  | value : RefJudged .value .value .value

section

variable (ctx : Context) {r : Refers} {ref ref' : Reference} {v : Option Fault} {x x' : Lowering Unit}

theorem judged_typeof (hr : RefJudged r ref ref') (hx : Judged v x x') :
    Judged (r.typeofEarly v) (lowerTypeof ctx ref x) (lowerTypeof ctx ref' x') := by
  cases hr with
  | name name =>
    refine .step _ fun resolution => ?_
    cases resolution <;> exact .refl _
  | property => exact hx.last _
  | value => exact hx.last _

theorem judged_delete (hr : RefJudged r ref ref') (hx : Judged v x x') :
    Judged (r.deleteEarly v) (lowerDelete ctx ref x) (lowerDelete ctx ref' x') := by
  cases hr with
  | name name =>
    refine .step _ fun resolution => ?_
    cases resolution <;> exact .refl _
  | property ho hk => exact ho.bind fun _ => hk.last _
  | value => exact hx.last _

theorem judged_update (op : UpdateOp) (before : Bool) (hr : RefJudged r ref ref') :
    Judged r.updateEarly (lowerUpdate ctx op before ref) (lowerUpdate ctx op before ref') := by
  cases hr with
  | name name =>
    cases before <;> simp only [lowerUpdate, Bool.false_eq_true, if_true, if_false] <;>
      exact .step _ fun one => .step _ fun _ => .step _ fun _ => .step _ fun _ => .refl _
  | property ho hk =>
    cases before <;> simp only [lowerUpdate, Bool.false_eq_true, if_true, if_false] <;>
      exact .step _ fun one => ho.bind fun _ => hk.fst fun _ => .step _ fun _ => .step _ fun _ => .step _ fun _ =>
        .step _ fun _ => .step _ fun _ => .refl _
  | value => exact .step _ fun one => .throws _

theorem judged_assignment (op : Option BinaryOp) (hr : RefJudged r ref ref') (hx : Judged v x x') :
    Judged (r.assignmentEarly v) (lowerAssignment ctx op ref x) (lowerAssignment ctx op ref' x') := by
  cases hr with
  | name name =>
    cases op with
    | some op => exact .step _ fun _ => hx.last _
    | none => exact hx.last _
  | property ho hk =>
    cases op with
    | some op => exact ho.bind fun _ => hk.bind fun _ => .step _ fun _ => .step _ fun _ => hx.last _
    | none => exact ho.bind fun _ => hk.bind fun _ => hx.last _
  | value => exact .throws _

theorem judged_callee (hr : RefJudged r ref ref') (hx : Judged v x x') :
    Judged (r.deleteEarly v) (lowerCallee ctx ref x) (lowerCallee ctx ref' x') := by
  cases hr with
  | name name =>
    refine .step _ fun resolution => ?_
    cases resolution <;> exact .refl _
  | property ho hk => exact ho.bind fun _ => .step _ fun _ => hk.last _
  | value => exact hx.last _

theorem judged_argumentCount (n : Nat) :
    Judged (if n < poolLimit then none else some (.limit .arguments)) (argumentCount n) (argumentCount n) := by
  unfold argumentCount
  split
  · exact .refl _
  · exact .throws _

end

section

variable (hi : Judges V inner inner') (ctx : Context) (b : Bool) (rs : List Region)
include hi

set_option linter.unusedSectionVars false

mutual

theorem judged_expr : ∀ e : Expr, Judged (e.early V) (lowerExpr inner ctx e) (lowerExpr inner' (ctx.beside b rs) e.placeless)
  | .number _ | .string _ | .boolean _ | .null | .this => by
    simp only [Expr.early, Expr.placeless, lowerExpr]
    exact .refl _
  | .identifier id => .refl (load ctx id.name)
  | .array elements => by
    have hlength : (elementsPlaceless elements).length = elements.length := by rw [elementsPlaceless_eq, List.length_map]
    simp only [Expr.early, Expr.placeless, lowerExpr, hlength]
    split
    · exact .step _ fun _ => judged_elements elements 0
    · exact .throws_bind _ _ _
  | .object properties => .step _ fun _ => judged_properties properties
  | .function f => judged_pushClosure hi ctx f true
  | .grouping e => judged_expr e
  | .unary op e => by
    have he := judged_expr e
    have hr := judged_reference e
    cases op <;> simp only [Expr.early, Expr.placeless, lowerExpr]
    case typeof => exact judged_typeof ctx hr he
    case delete => exact judged_delete ctx hr he
    all_goals exact he.last _
  | .update op before e => judged_update ctx op before (judged_reference e)
  | .binary op l r => (judged_expr l).bind fun _ => (judged_expr r).last _
  | .logical op l r => .step _ fun done => (judged_expr l).bind fun _ => .step _ fun _ => (judged_expr r).last _
  | .assignment op t value => judged_assignment ctx op (judged_reference t) (judged_expr value)
  | .conditional test x y =>
    .step _ fun otherwise => .step _ fun done => (judged_expr test).bind fun _ => .step _ fun _ =>
      (judged_expr x).bind fun _ => .step _ fun _ => .step _ fun _ => (judged_expr y).last _
  | .sequence items => judged_sequence items
  | .call callee arguments => by
    simp only [Expr.early, Expr.placeless, lowerExpr, Expr.describe_placeless, Expr.callsEval_placeless]
    exact (judged_callee ctx (judged_reference callee) (judged_expr callee)).bind fun _ =>
      (judged_arguments arguments).last _
  | .member object property =>
    (judged_expr object).last fun _ => do
      pushString property.name
      emit .getProperty
  | .index object key => (judged_expr object).bind fun _ => (judged_expr key).last _
  | .new e => by
    have he : Judged (e.early V) (do lowerExpr inner ctx e; emitWith .new (.count 0))
        (do lowerExpr inner' (ctx.beside b rs) e.placeless; emitWith .new (.count 0)) := (judged_expr e).last _
    cases e
    case call callee arguments =>
      simp only [Expr.early, Expr.placeless, lowerExpr]
      exact (judged_expr callee).bind fun _ => (judged_arguments arguments).last _
    all_goals exact he

theorem judged_reference : ∀ e : Expr,
    RefJudged (e.refers V) (reference inner ctx e) (reference inner' (ctx.beside b rs) e.placeless)
  | .grouping e => judged_reference e
  | .identifier id => .name id.name
  | .member object property => .property (judged_expr object) (.refl (pushString property.name))
  | .index object key => .property (judged_expr object) (judged_expr key)
  | .number _ | .string _ | .boolean _ | .null | .this | .array _ | .object _ | .function _ | .unary .. | .update ..
  | .binary .. | .logical .. | .assignment .. | .conditional .. | .sequence _ | .call .. | .new _ => .value

theorem judged_sequence : ∀ es : List Expr,
    Judged (sequenceEarly V es) (lowerSequence inner ctx es) (lowerSequence inner' (ctx.beside b rs) (itemsPlaceless es))
  | [] => .throws _
  | [e] => judged_expr e
  | e :: e' :: es => by
    have hrest := judged_sequence (e' :: es)
    simp only [sequenceEarly, itemsPlaceless, lowerSequence] at hrest ⊢
    exact (judged_expr e).bind fun _ => .step _ fun _ => hrest

theorem judged_elements : ∀ (es : List (Option Expr)) (i : Nat),
    Judged (elementsEarly V es) (lowerElements inner ctx es i) (lowerElements inner' (ctx.beside b rs) (elementsPlaceless es) i)
  | [], _ => by
    simp only [elementsEarly, elementsPlaceless, lowerElements]
    exact .refl _
  | none :: es, i => judged_elements es (i + 1)
  | some e :: es, i => (judged_expr e).bind fun _ => .step _ fun _ => .step _ fun _ => judged_elements es (i + 1)

theorem judged_properties : ∀ ps : List (String × Expr),
    Judged (propertiesEarly V ps) (lowerProperties inner ctx ps) (lowerProperties inner' (ctx.beside b rs) (propertiesPlaceless ps))
  | [] => by
    simp only [propertiesEarly, propertiesPlaceless, lowerProperties]
    exact .refl _
  | (_, e) :: ps => (judged_expr e).bind fun _ => .step _ fun _ => .step _ fun _ => judged_properties ps

theorem judged_arguments : ∀ arguments : Option Expr,
    Judged (argumentsEarly V arguments) (lowerArguments inner ctx arguments)
      (lowerArguments inner' (ctx.beside b rs) (optionPlaceless arguments))
  | none => by
    simp only [argumentsEarly, optionPlaceless, lowerArguments]
    exact .refl _
  | some e => by
    have he : Judged (e.early V) (do lowerExpr inner ctx e; return 1)
        (do lowerExpr inner' (ctx.beside b rs) e.placeless; return 1) := (judged_expr e).last _
    cases e
    case sequence items =>
      have hlength : (itemsPlaceless items).length = items.length := by rw [itemsPlaceless_eq, List.length_map]
      simp only [argumentsEarly, optionPlaceless, Expr.placeless, lowerArguments, hlength]
      exact (judged_items items).bind fun _ => judged_argumentCount _
    all_goals exact he

theorem judged_items : ∀ es : List Expr,
    Judged (itemsEarly V es) (lowerItems inner ctx es) (lowerItems inner' (ctx.beside b rs) (itemsPlaceless es))
  | [] => by
    simp only [itemsEarly, itemsPlaceless, lowerItems]
    exact .refl _
  | e :: es => (judged_expr e).bind fun _ => judged_items es

end

end

/-! ## Constructs around code -/

/-- The same constructs around a statement, with finalizers that agree, are as they are said to be. -/
inductive Stands : List Region → List Region → List Around → Prop
  | nil : Stands [] [] []
  | breakable {rs rs' as} (labels kind breakTo continueTo) : Stands rs rs' as →
    Stands (.breakable labels kind breakTo continueTo :: rs) (.breakable labels kind breakTo continueTo :: rs')
      (.breakable labels kind (Option.isSome continueTo) :: as)
  | plain {rs rs' as} : Stands rs rs' as → Stands (.attempt none :: rs) (.attempt none :: rs') (.attempt none :: as)
  | finalized {rs rs' as x y v} : Judged v x y → Stands rs rs' as →
    Stands (.attempt (some x) :: rs) (.attempt (some y) :: rs') (.attempt v :: as)
  | scope {rs rs' as} : Stands rs rs' as → Stands (.scope :: rs) (.scope :: rs') (.scope :: as)

variable {b : Bool}

/-- The two contexts are the same place, with the check left out of the second or not. -/
structure Context.At (b : Bool) (ctx ctx' : Context) (p : Site) : Prop where
  kind : ctx.kind = p.kind
  beside : ∃ rs, ctx' = ctx.beside b rs ∧ Stands ctx.regions rs p.around

/-- The two parts of a statement agree and have the given faults, place by place. -/
def PartJudged (b : Bool) (v : Site → Option Fault) (x y : Part) : Prop :=
  ∀ ctx ctx' p, Context.At b ctx ctx' p → Judged (v p) (x ctx) (y ctx')

namespace Context.At

variable {ctx ctx' : Context} {p : Site}

theorem breakable (h : Context.At b ctx ctx' p) (labels : List String) (kind : BreakableKind) (breakTo : Label)
    (continueTo : Option Label) :
    Context.At b (ctx.within (.breakable labels kind breakTo continueTo))
      (ctx'.within (.breakable labels kind breakTo continueTo)) (p.within (.breakable labels kind continueTo.isSome)) := by
  obtain ⟨hkind, rs, rfl, hrs⟩ := h
  exact ⟨hkind, _, rfl, hrs.breakable labels kind breakTo continueTo⟩

theorem attempt (h : Context.At b ctx ctx' p) : Context.At b (ctx.within (.attempt none)) (ctx'.within (.attempt none))
    (p.within (.attempt none)) := by
  obtain ⟨hkind, rs, rfl, hrs⟩ := h
  exact ⟨hkind, _, rfl, hrs.plain⟩

theorem finalized (h : Context.At b ctx ctx' p) {v : Option Fault} {x y : Lowering Unit} (hx : Judged v x y) :
    Context.At b (ctx.within (.attempt (some x))) (ctx'.within (.attempt (some y))) (p.within (.attempt v)) := by
  obtain ⟨hkind, rs, rfl, hrs⟩ := h
  exact ⟨hkind, _, rfl, hrs.finalized hx⟩

theorem inScope (h : Context.At b ctx ctx' p) (s : ScopeRef) :
    Context.At b (ctx.inScope s) (ctx'.inScope s) (p.within .scope) := by
  obtain ⟨hkind, rs, rfl, hrs⟩ := h
  exact ⟨hkind, _, rfl, hrs.scope⟩

end Context.At

theorem judged_unwind {rs rs' : List Region} {as : List Around} (h : Stands rs rs' as) :
    Judged (finalizersEarly as) (unwind rs) (unwind rs') := by
  induction h with
  | nil => exact .refl (pure _)
  | breakable _ _ _ _ _ ih => exact ih
  | plain _ ih => exact .step _ fun _ => .step (pure _) fun _ => ih
  | finalized hx _ ih => exact .step _ fun _ => hx.bind fun _ => ih
  | scope _ ih => exact .step _ fun _ => ih

/-- What a jump refers to in the same constructs twice, given the fault of the jump and those of the finalizers
that it runs on its way. -/
inductive Found (v : Option Fault) : Option Fault → Except Fault (Label × List Region) →
    Except Fault (Label × List Region) → Prop
  | ok {l left left'} : Judged v (unwind left) (unwind left') → Found v none (.ok (l, left)) (.ok (l, left'))
  | error (f : Fault) : Found v (some f) (.error f) (.error f)

theorem Found.keep {v v' w : Option Fault} {x y : Except Fault (Label × List Region)} (h : Found v w x y) {r r' : Region}
    (hr : ∀ left left', Judged v (unwind left) (unwind left') → Judged v' (unwind (r :: left)) (unwind (r' :: left'))) :
    Found v' w (JumpKind.target.keep r x) (JumpKind.target.keep r' y) := by
  cases h with
  | ok hl => exact .ok (hr _ _ hl)
  | error f => exact .error f

theorem found_target (jump : JumpKind) (label : Option String) {rs rs' : List Region} {as : List Around}
    (h : Stands rs rs' as) :
    Found (leftEarly jump label as) (targetEarly jump label as) (jump.target label rs) (jump.target label rs') := by
  induction h with
  | nil => exact .error _
  | breakable labels kind breakTo continueTo _ ih =>
    simp only [JumpKind.target, targetEarly, leftEarly]
    split
    · cases jump with
      | breaks => exact .ok (.refl (pure _))
      | continues =>
        cases continueTo with
        | none => exact .error _
        | some l => exact .ok (.refl (pure _))
    · exact ih.keep fun _ _ hl => hl
  | plain _ ih => exact ih.keep fun _ _ hl => .step _ fun _ => .step (pure _) fun _ => hl
  | finalized hx _ ih => exact ih.keep fun _ _ hl => .step _ fun _ => hx.bind fun _ => hl
  | scope _ ih => exact ih.keep fun _ _ hl => .step _ fun _ => hl

theorem judged_jump (jump : JumpKind) (label : Option String) :
    PartJudged b (fun p => (targetEarly jump label p.around).or (leftEarly jump label p.around)) (lowerJump jump label)
      (lowerJump jump label) := by
  rintro ctx _ p ⟨-, rs, rfl, hrs⟩
  have hfound := found_target jump label hrs
  change Judged ((targetEarly jump label p.around).or (leftEarly jump label p.around))
    (liftM (jump.target label ctx.regions) >>= _) (liftM (jump.target label rs) >>= _)
  generalize jump.target label ctx.regions = x at hfound ⊢
  generalize jump.target label rs = y at hfound ⊢
  generalize targetEarly jump label p.around = v at hfound ⊢
  cases hfound with
  | error f => exact .throws_bind f _ _
  | @ok l _ _ hleft => exact hleft.last fun _ => emitJump .jump l

theorem judged_returnTop : PartJudged b (fun p => finalizersEarly p.around) returnTop returnTop := by
  rintro ctx _ p ⟨-, rs, rfl, hrs⟩
  have hany : ∀ {rs rs' as}, Stands rs rs' as → rs'.any Region.isFinalized = rs.any Region.isFinalized ∧
      (rs.any Region.isFinalized = false → finalizersEarly as = none) := by
    intro rs rs' as h
    induction h with
    | nil => exact ⟨rfl, fun _ => rfl⟩
    | breakable _ _ _ _ _ ih | plain _ ih | scope _ ih => exact ih
    | finalized => simp [Region.isFinalized]
  simp only [returnTop, (hany hrs).1]
  split
  · exact .step _ fun value => .step _ fun _ => (judged_unwind hrs).last fun _ => do
      emitWith .loadLocal (.temporary value)
      emit .ret
  · rename_i hf
    rw [(hany hrs).2 (Bool.eq_false_iff.2 hf)]
    exact .refl (emit _)

/-! ## Parts without statements -/

section

variable (hi : Judges V inner inner')
variable {cs : List SwitchCase} {ds ds' : List Clause} {v : Site → Option Fault} {x y : Part}
include hi

theorem judged_declarators : ∀ ds : List Declarator,
    PartJudged b (fun _ => declaratorsEarly V ds) (lowerDeclarators inner ds) (lowerDeclarators inner' (declaratorsPlaceless ds))
  | [] => fun _ _ _ _ => .refl (pure _)
  | ⟨_, none⟩ :: ds => judged_declarators ds
  | ⟨id, some init⟩ :: ds => by
    intro ctx ctx' p hc
    have hrest := judged_declarators ds ctx ctx' p hc
    obtain ⟨-, rs, rfl, -⟩ := hc
    exact (judged_expr hi ctx b rs init).bind fun _ => .step (store ctx id.name) fun _ => .step _ fun _ => hrest

theorem judged_evaluation (e : Expr) :
    PartJudged b (fun _ => e.early V) (lowerEvaluation inner e) (lowerEvaluation inner' e.placeless) := by
  rintro ctx _ p ⟨-, rs, rfl, -⟩
  have he := judged_expr hi ctx b rs e
  simp only [lowerEvaluation]
  cases ctx.completion <;> exact he.last _

theorem judged_throw (e : Expr) :
    PartJudged b (fun _ => e.early V) (lowerThrow inner e) (lowerThrow inner' e.placeless) := by
  rintro ctx _ p ⟨-, rs, rfl, -⟩
  exact (judged_expr hi ctx b rs e).last _

theorem judged_return (value : Option Expr) :
    PartJudged b (fun p => if p.kind == .function then (optionEarly V value).or (finalizersEarly p.around)
      else some (.source .illegalReturn)) (lowerReturn inner value) (lowerReturn inner' (optionPlaceless value)) := by
  intro ctx ctx' p hc
  have hreturn := judged_returnTop ctx ctx' p hc
  obtain ⟨hkind, rs, rfl, hrs⟩ := hc
  simp only [lowerReturn, hkind]
  split
  · cases value with
    | some e => exact (judged_expr hi ctx b rs e).bind fun _ => hreturn
    | none => exact .step _ fun _ => hreturn
  · exact .throws_bind _ _ _

theorem judged_branch (test : Expr) {s : Stmt} (hs : PartJudged b (s.early V) (lowerStmt inner s) (lowerStmt inner' s.placeless))
    {alternate : Option Stmt}
    (ha : ∀ s ∈ alternate, PartJudged b (s.early V) (lowerStmt inner s) (lowerStmt inner' s.placeless)) :
    PartJudged b (fun p => (test.early V).or ((s.early V p).or (alternateEarly V alternate p)))
      (lowerBranch inner test (lowerStmt inner s) (lowerAlternate inner alternate))
      (lowerBranch inner' test.placeless (lowerStmt inner' s.placeless)
        (lowerAlternate inner' (alternatePlaceless alternate))) := by
  intro ctx ctx' p hc
  have hs := hs ctx ctx' p hc
  have htest : Judged (test.early V) (lowerExpr inner ctx test) (lowerExpr inner' ctx' test.placeless) := by
    obtain ⟨-, rs, rfl, -⟩ := hc
    exact judged_expr hi ctx b rs test
  refine .step _ fun otherwise => htest.bind fun _ => .step _ fun _ => hs.bind fun _ => ?_
  cases alternate with
  | none => exact .refl (mark _)
  | some s => exact .step _ fun done => .step _ fun _ => .step _ fun _ => (ha s rfl ctx ctx' p hc).last _

/-! ## Loops -/

theorem judged_loopInit (head : LoopHead) (keys : Nat) :
    PartJudged b (fun _ => initEarly V head) (lowerLoopInit inner head keys) (lowerLoopInit inner' head.placeless keys) := by
  intro ctx ctx' p hc
  rcases head with ⟨_ | (ds | e), test, update⟩ | test | test | ⟨d | e, object⟩
  · exact .refl (pure _)
  · exact judged_declarators hi ds ctx ctx' p hc
  · obtain ⟨-, rs, rfl, -⟩ := hc
    exact (judged_expr hi ctx b rs e).last _
  · exact .refl (pure _)
  · exact .refl (pure _)
  · have hdeclare := judged_declarators hi [d] ctx ctx' p hc
    obtain ⟨-, rs, rfl, -⟩ := hc
    exact hdeclare.bind fun _ => (judged_expr hi ctx b rs object).last _
  · obtain ⟨-, rs, rfl, -⟩ := hc
    exact (judged_expr hi ctx b rs object).last fun _ => emitWith .forInPrepare (.temporary keys)

theorem judged_loopCondition (head : LoopHead) (keys : Nat) :
    PartJudged b (fun _ => testEarly V head) (lowerLoopCondition inner head keys)
      (lowerLoopCondition inner' head.placeless keys) := by
  rintro ctx _ p ⟨-, rs, rfl, -⟩
  rcases head with ⟨init, _ | test, update⟩ | test | test | ⟨target, object⟩
  · exact .refl (emit _)
  · exact judged_expr hi ctx b rs test
  · exact judged_expr hi ctx b rs test
  · exact judged_expr hi ctx b rs test
  · exact .refl (emitWith _ _)

theorem judged_loopTest (head : LoopHead) (keys : Nat) (exit : Label) :
    PartJudged b (fun _ => testEarly V head) (lowerLoopTest inner head keys exit)
      (lowerLoopTest inner' head.placeless keys exit) := by
  intro ctx ctx' p hc
  have hcondition := judged_loopCondition hi head keys ctx ctx' p hc
  rcases head with ⟨init, _ | test, update⟩ | test | test | ⟨target, object⟩
  · exact .refl (pure _)
  all_goals exact hcondition.last _

theorem judged_loopUpdate (head : LoopHead) :
    PartJudged b (fun _ => updateEarly V head) (lowerLoopUpdate inner head) (lowerLoopUpdate inner' head.placeless) := by
  rintro ctx _ p ⟨-, rs, rfl, -⟩
  rcases head with ⟨init, test, _ | update⟩ | test | test | ⟨target, object⟩
  · exact .refl (pure _)
  · exact (judged_expr hi ctx b rs update).last _
  all_goals exact .refl (pure _)

theorem judged_assignTop (ctx : Context) (rs : List Region) (e : Expr) :
    Judged (e.refers V).assignTopEarly (assignTop inner ctx e) (assignTop inner' (ctx.beside b rs) e.placeless) := by
  have hr := judged_reference hi ctx b rs e
  rw [assignTop, assignTop]
  generalize e.refers V = r at hr ⊢
  generalize reference inner ctx e = ref at hr ⊢
  generalize reference inner' (ctx.beside b rs) e.placeless = ref' at hr ⊢
  cases hr with
  | name name => exact .refl (store ctx name)
  | property ho hk =>
    exact .step _ fun value => .step _ fun _ => ho.bind fun _ => hk.last fun _ => do
      emitWith .loadLocal (.temporary value)
      emit .setProperty
  | value => exact .throws _

section

variable (head : LoopHead) (keys : Nat) (labels : List String) {v : Site → Option Fault} {x y : Part}
  (hx : PartJudged b v x y)
include hx

theorem judged_round (breakTo continueTo : Label) :
    PartJudged b (fun p => (keyEarly V head).or (v (p.within (.breakable labels .loop true))))
      (lowerRound inner head keys labels x breakTo continueTo)
      (lowerRound inner' head.placeless keys labels y breakTo continueTo) := by
  intro ctx ctx' p hc
  have hbody := hx _ _ _ (hc.breakable labels .loop breakTo (some continueTo))
  obtain ⟨-, rs, rfl, -⟩ := hc
  rcases head with ⟨init, test, update⟩ | test | test | ⟨d | e, object⟩
  · exact hbody
  · exact hbody
  · exact hbody
  · obtain ⟨id, init⟩ := d
    exact .step _ fun _ => .step (store ctx id.name) fun _ => .step _ fun _ => hbody
  · exact .step _ fun _ => (judged_assignTop hi ctx rs e).bind fun _ => .step _ fun _ => hbody

omit hi hx in
theorem testsLast_placeless : testsLast head.placeless = testsLast head := by
  cases head <;> rfl

theorem judged_rotatedLoop :
    PartJudged b (fun p => roundsEarly V head (v (p.within (.breakable labels .loop true))))
      (lowerRotatedLoop inner head keys labels x) (lowerRotatedLoop inner' head.placeless keys labels y) := by
  intro ctx ctx' p hc
  have hround := fun b c => judged_round hi head keys labels hx b c ctx ctx' p hc
  have htest := fun exit => judged_loopTest hi head keys exit ctx ctx' p hc
  have hupdate := judged_loopUpdate hi head ctx ctx' p hc
  simp only [roundsEarly, lowerRotatedLoop, testsLast_placeless] at hround ⊢
  generalize (keyEarly V head).or (v (p.within (.breakable labels .loop true))) = round at hround ⊢
  have hrest := fun done next => (hround done next).bind fun _ => Judged.step (mark next) fun _ => hupdate.bind fun _ =>
    Judged.step newLabel fun top => Judged.step newLabel fun laterDone => Judged.step newLabel fun laterNext =>
    Judged.step (mark top) fun _ => (htest laterDone).bind fun _ => (hround laterDone laterNext).bind fun _ =>
    Judged.step (mark laterNext) fun _ => hupdate.last fun _ => do
      emitJump .jump top
      mark laterDone
      mark done
  refine .step _ fun done => .step _ fun next => ?_
  cases testsLast head with
  | true =>
    refine (hrest done next).of_eq ?_
    cases round <;> cases updateEarly V head <;> cases testEarly V head <;> rfl
  | false =>
    refine ((htest done).bind fun _ => hrest done next).of_eq ?_
    cases round <;> cases updateEarly V head <;> cases testEarly V head <;> rfl

theorem judged_simpleLoop :
    PartJudged b (fun p => roundsEarly V head (v (p.within (.breakable labels .loop true))))
      (lowerSimpleLoop inner head keys labels x) (lowerSimpleLoop inner' head.placeless keys labels y) := by
  intro ctx ctx' p hc
  have hround := fun b c => judged_round hi head keys labels hx b c ctx ctx' p hc
  have hupdate := judged_loopUpdate hi head ctx ctx' p hc
  simp only [roundsEarly, lowerSimpleLoop, testsLast_placeless]
  refine .step _ fun top => .step _ fun start => .step _ fun next => .step _ fun done => .step _ fun _ => ?_
  cases testsLast head with
  | true =>
    exact .step (mark start) fun _ => (hround done next).bind fun _ => .step (mark next) fun _ => hupdate.bind fun _ =>
      (judged_loopCondition hi head keys ctx ctx' p hc).last fun _ => do
        emitJump .jumpIfTrue start
        mark done
  | false =>
    exact (judged_loopTest hi head keys done ctx ctx' p hc).bind fun _ => .step (mark start) fun _ =>
      (hround done next).bind fun _ => .step (mark next) fun _ => hupdate.last fun _ => do
        emitJump .jump top
        mark done

theorem judged_loop :
    PartJudged b (fun p => (initEarly V head).or (roundsEarly V head (v (p.within (.breakable labels .loop true)))))
      (lowerLoop inner head labels x) (lowerLoop inner' head.placeless labels y) := by
  intro ctx ctx' p hc
  have hloop := fun keys => (judged_loopInit hi head keys ctx ctx' p hc).bind fun _ =>
    Judged.ite ctx.options.loopRotation (judged_rotatedLoop hi head keys labels hx ctx ctx' p hc)
      (judged_simpleLoop hi head keys labels hx ctx ctx' p hc)
  obtain ⟨-, rs, rfl, -⟩ := hc
  cases head with
  | forIn target object => exact .step _ hloop
  | _ => exact hloop 0

end

/-! ## Switch -/

omit hi in
/-- The clauses of a switch, twice, with their labels: the bodies agree and have their faults. -/
inductive Labelled (b : Bool) (V : FunctionTree → Option Fault) : List SwitchCase → List Clause → List Clause → Prop
  | nil : Labelled b V [] [] []
  | cons {test body x y cs ds ds'} (label : Label) : PartJudged b (bodyEarly V body) x y → Labelled b V cs ds ds' →
    Labelled b V (⟨test, body⟩ :: cs) (⟨test, x, label⟩ :: ds) (⟨optionPlaceless test, y, label⟩ :: ds')

omit hi in
theorem judged_labelClauses {w : Option Fault} : ∀ {cs : List SwitchCase} {k l : List Clause → Lowering Unit},
    (∀ c ∈ cs, PartJudged b (bodyEarly V c.body) (lowerBody inner c.body) (lowerBody inner' (bodyPlaceless c.body))) →
    (∀ ds ds', Labelled b V cs ds ds' → Judged w (k ds) (l ds')) →
    Judged w (labelClauses (lowerCases inner cs) >>= k) (labelClauses (lowerCases inner' (casesPlaceless cs)) >>= l)
  | [], _, _, _, hkl => hkl [] [] .nil
  | ⟨test, body⟩ :: cs, k, l, hb, hkl => by
    simp only [lowerCases, casesPlaceless, SwitchCase.placeless, labelClauses, List.mapM_cons, bind_assoc, pure_bind]
    exact .step _ fun label => judged_labelClauses (fun c hc => hb c (.tail _ hc)) fun ds ds' hds =>
      hkl _ _ (.cons label (hb _ (.head _)) hds)

theorem judged_clauseTests (value : Nat) (ctx : Context) (rs : List Region) (h : Labelled b V cs ds ds') :
    Judged (clauseTestsEarly V (cs.map SwitchCase.test)) (lowerClauseTests inner ctx value ds)
      (lowerClauseTests inner' (ctx.beside b rs) value ds') := by
  induction h with
  | nil => exact .refl (pure _)
  | @cons test _ _ _ _ _ _ _ _ _ ih =>
    cases test with
    | none => exact ih
    | some e => exact .step _ fun _ => (judged_expr hi ctx b rs e).bind fun _ => .step _ fun _ => .step _ fun _ => ih

omit hi in
theorem judged_clauseBodies {ctx ctx' : Context} {p : Site} (hc : Context.At b ctx ctx' p) (h : Labelled b V cs ds ds') :
    Judged ((casesEarly V cs p).foldr Option.or none) (lowerClauseBodies ctx ds) (lowerClauseBodies ctx' ds') := by
  induction h with
  | nil => exact .refl (pure _)
  | cons label hb _ ih => exact .step _ fun _ => (hb ctx ctx' p hc).bind fun _ => ih

omit hi in
theorem default_placeless (h : Labelled b V cs ds ds') :
    (ds'.reverse.find? fun c => c.test.isNone).map Clause.label =
      (ds.reverse.find? fun c => c.test.isNone).map Clause.label := by
  have hview : ∀ ds : List Clause, (ds.reverse.find? fun c => c.test.isNone).map Clause.label =
      ((ds.map fun c => (c.test.isNone, c.label)).reverse.find? Prod.fst).map Prod.snd := by
    intro ds
    rw [← List.map_reverse, List.find?_map, Option.map_map]
    rfl
  have hsame : ds'.map (fun c => (c.test.isNone, c.label)) = ds.map fun c => (c.test.isNone, c.label) := by
    induction h with
    | nil => rfl
    | @cons test _ _ _ _ _ _ _ _ _ ih => rw [List.map_cons, List.map_cons, ih, optionPlaceless_eq, Option.isNone_map]
  rw [hview, hview, hsame]

theorem judged_switch (discriminant : Expr) (labels : List String)
    (hb : ∀ c ∈ cs, PartJudged b (bodyEarly V c.body) (lowerBody inner c.body) (lowerBody inner' (bodyPlaceless c.body))) :
    PartJudged b (fun p => (discriminant.early V).or ((clauseTestsEarly V (cs.map SwitchCase.test)).or
        ((casesEarly V cs (p.within (.breakable labels .switch false))).foldr Option.or none)))
      (lowerSwitch inner discriminant labels (lowerCases inner cs))
      (lowerSwitch inner' discriminant.placeless labels (lowerCases inner' (casesPlaceless cs))) := by
  intro ctx ctx' p hc
  have hsite := fun done => hc.breakable labels .switch done none
  obtain ⟨-, rs, rfl, -⟩ := hc
  refine .step _ fun value => (judged_expr hi ctx b rs discriminant).bind fun _ => .step _ fun _ => .step _ fun done =>
    judged_labelClauses hb fun ds ds' hds => ?_
  refine (judged_clauseTests hi value ctx rs hds).bind fun _ => ?_
  simp only [default_placeless hds]
  exact .step _ fun _ => (judged_clauseBodies (hsite done) hds).last _

/-! ## Exceptions and scopes -/

omit hi in
theorem judged_catch (param : Identifier) (hx : PartJudged b v x y) :
    PartJudged b (fun p => v (p.within .scope)) (lowerCatch param x) (lowerCatch param.placeless y) := by
  intro ctx ctx' p hc
  have hbody := fun s => hx _ _ _ (hc.inScope s)
  obtain ⟨-, rs, rfl, -⟩ := hc
  exact (judged_bindingScope ctx.scope param).bind fun s => .step _ fun key => .step _ fun _ => (hbody s).last _

omit hi in
theorem judged_attempt {block : List Stmt} {handler : Option CatchClause} {finalizer : Option (List Stmt)}
    (hb : PartJudged b (bodyEarly V block) (lowerBody inner block) (lowerBody inner' (bodyPlaceless block)))
    (hh : ∀ c ∈ handler, PartJudged b (bodyEarly V c.body) (lowerBody inner c.body) (lowerBody inner' (bodyPlaceless c.body)))
    (hf : ∀ body ∈ finalizer, PartJudged b (bodyEarly V body) (lowerBody inner body) (lowerBody inner' (bodyPlaceless body))) :
    PartJudged b (fun p =>
        let final := finalizerEarly V finalizer p
        let region := p.within (.attempt final)
        (bodyEarly V block region).or
          ((handlerEarly V handler ((if finalizer.isSome then region else p).within .scope)).or final))
      (lowerAttempt (lowerBody inner block) (lowerHandler inner handler) (lowerFinalizer inner finalizer))
      (lowerAttempt (lowerBody inner' (bodyPlaceless block)) (lowerHandler inner' (handlerPlaceless handler))
        (lowerFinalizer inner' (finalizerPlaceless finalizer))) := by
  intro ctx ctx' p hc
  have hregion : Context.At b (ctx.within (.attempt ((lowerFinalizer inner finalizer).map fun f => f ctx)))
      (ctx'.within (.attempt ((lowerFinalizer inner' (finalizerPlaceless finalizer)).map fun f => f ctx')))
      (p.within (.attempt (finalizerEarly V finalizer p))) := by
    cases finalizer with
    | none => exact hc.attempt
    | some body => exact hc.finalized (hf body rfl ctx ctx' p hc)
  have hsome : (lowerHandler inner' (handlerPlaceless handler)).isSome = (lowerHandler inner handler).isSome := by
    rcases handler with _ | ⟨_, _⟩ <;> rfl
  rw [lowerAttempt_eq, lowerAttempt_eq, hsome]
  refine .step _ fun done => .step _ fun rethrow => .step _ fun caught => .step _ fun _ =>
    (hb _ _ _ hregion).bind fun _ => .step _ fun _ => .step _ fun after => .step _ fun _ => .bind ?_ fun _ =>
    .step _ fun _ => Judged.last ?_ _
  · cases handler with
    | none => exact .refl (pure _)
    | some c =>
      obtain ⟨param, body⟩ := c
      have hh := judged_catch param (hh _ rfl)
      cases finalizer with
      | none => exact .step _ fun _ => hh _ _ _ hc
      | some => exact .step _ fun _ => .step _ fun _ => (hh _ _ _ hregion).last _
  · cases finalizer with
    | none => exact .refl (pure _)
    | some body =>
      have hf := hf body rfl ctx ctx' p hc
      refine Judged.of_eq (hf.bind fun _ => .step _ fun _ => .step _ fun _ => .step _ fun exception => .step _ fun _ =>
        hf.last fun _ => do
          emitWith .loadLocal (.temporary exception)
          emit .throwValue) ?_
      rw [finalizerEarly]
      cases bodyEarly V body p <;> rfl

theorem judged_scoped (object : Expr) (hx : PartJudged b v x y) :
    PartJudged b (fun p => (object.early V).or (v (p.within .scope))) (lowerScoped inner object x)
      (lowerScoped inner' object.placeless y) := by
  intro ctx ctx' p hc
  have hbody := fun s => hx _ _ _ (hc.inScope s)
  obtain ⟨-, rs, rfl, -⟩ := hc
  exact (judged_expr hi ctx b rs object).bind fun _ => .step _ fun _ => .step (withScope ctx.scope) fun s =>
    (hbody s).last _

omit hi in
theorem judged_labelled (labels : List String) (span : Span) (hx : PartJudged b v x y) :
    PartJudged b (fun p => v (if labels.isEmpty then p else p.within (.breakable labels .labelled false)))
      (lowerLabelled labels span x) (lowerLabelled labels .nowhere y) := by
  intro ctx ctx' p hc
  have hstatement := hx _ _ _ hc
  have hexit := fun exit => hx _ _ _ (hc.breakable labels .labelled exit none)
  obtain ⟨-, rs, rfl, -⟩ := hc
  have hcheck : ∀ before, Judged none
      (do
        let after ← stackDepth
        if ctx.options.checkBalance && after != before then
          throw (.internal (.unbalanced span after before)))
      (do
        let after ← stackDepth
        if (b && ctx.options.checkBalance) && after != before then
          throw (.internal (.unbalanced .nowhere after before))) := by
    intro before
    refine .step _ fun after => ?_
    rw [Bool.and_assoc]
    cases ctx.options.checkBalance && after != before with
    | true => exact fun _ => ⟨.inl (.inr rfl), .inr ⟨span, after, before, rfl⟩⟩
    | false =>
      rw [Bool.and_false]
      exact .refl (pure _)
  refine .step _ fun before => ?_
  split
  · exact hstatement.fst fun _ => hcheck before
  · exact .step _ fun exit => (hexit exit).fst fun _ => .step _ fun _ => hcheck before

end

/-! ## Statements -/

section

variable (hi : Judges V inner inner')
include hi

set_option linter.unusedSectionVars false

mutual

theorem judged_stmt : ∀ s : Stmt, PartJudged b (s.early V) (lowerStmt inner s) (lowerStmt inner' s.placeless)
  | ⟨labels, span, kind⟩ => judged_labelled labels span (judged_kind kind labels)

theorem judged_kind : ∀ (k : StmtKind) (labels : List String),
    PartJudged b (k.early V labels) (lowerKind inner k labels) (lowerKind inner' k.placeless labels)
  | .var ds, _ => judged_declarators hi ds
  | .function _, _ | .empty, _ => fun _ _ _ _ => .refl (pure _)
  | .expression e, _ => judged_evaluation hi e
  | .block body, _ => judged_body body
  | .branch test consequent alternate, _ =>
    judged_branch hi test (judged_stmt consequent) (judged_alternate alternate)
  | .loop head body, labels => judged_loop hi head labels (judged_stmt body)
  | .switch discriminant cases, labels => judged_switch hi discriminant labels (judged_cases cases)
  | .returns value, _ => judged_return hi value
  | .breaks label, _ => by
    rw [StmtKind.placeless, lowerKind, lowerKind, Option.map_map]
    exact judged_jump .breaks _
  | .continues label, _ => by
    rw [StmtKind.placeless, lowerKind, lowerKind, Option.map_map]
    exact judged_jump .continues _
  | .throws value, _ => judged_throw hi value
  | .attempt block handler finalizer, _ =>
    judged_attempt (judged_body block) (judged_handler handler) (judged_finalizer finalizer)
  | .scoped object body, _ => judged_scoped hi object (judged_stmt body)

theorem judged_alternate : ∀ alternate : Option Stmt, ∀ s ∈ alternate,
    PartJudged b (s.early V) (lowerStmt inner s) (lowerStmt inner' s.placeless)
  | none, _, h => by cases h
  | some s, _, h => by
    cases h
    exact judged_stmt s

theorem judged_handler : ∀ handler : Option CatchClause, ∀ c ∈ handler,
    PartJudged b (bodyEarly V c.body) (lowerBody inner c.body) (lowerBody inner' (bodyPlaceless c.body))
  | none, _, h => by cases h
  | some ⟨_, body⟩, _, h => by
    cases h
    exact judged_body body

theorem judged_finalizer : ∀ finalizer : Option (List Stmt), ∀ body ∈ finalizer,
    PartJudged b (bodyEarly V body) (lowerBody inner body) (lowerBody inner' (bodyPlaceless body))
  | none, _, h => by cases h
  | some body, _, h => by
    cases h
    exact judged_body body

theorem judged_body : ∀ body : List Stmt,
    PartJudged b (bodyEarly V body) (lowerBody inner body) (lowerBody inner' (bodyPlaceless body))
  | [] => fun _ _ _ _ => .refl (pure _)
  | s :: ss => fun ctx ctx' p hc => (judged_stmt s ctx ctx' p hc).bind fun _ => judged_body ss ctx ctx' p hc

theorem judged_cases : ∀ cases : List SwitchCase, ∀ c ∈ cases,
    PartJudged b (bodyEarly V c.body) (lowerBody inner c.body) (lowerBody inner' (bodyPlaceless c.body))
  | [], _, h => by cases h
  | ⟨_, body⟩ :: cs, c, h => by
    cases h with
    | head => exact judged_body body
    | tail _ h => exact judged_cases cs c h

end

end

/-! ## Units -/

theorem declareAll_placeless (root : ScopeRef) (ds : Array Declaration) (a : ScopeArena) :
    declareAll root (ds.map Declaration.placeless) a.placeless = (declareAll root ds a).placeless := by
  simp only [declareAll, ← Array.foldl_toList, Array.toList_map, List.foldl_map]
  generalize 0 = next
  induction ds.toList generalizing next a with
  | nil => rfl
  | cons d ds ih =>
    obtain ⟨id, function⟩ := d
    cases function with
    | none =>
      simp only [List.foldl_cons, Declaration.placeless, Identifier.placeless, Option.map_none,
        ScopeArena.declareIn_placeless a root id.name none id.span]
      exact ih _ _
    | some f =>
      simp only [List.foldl_cons, Declaration.placeless, Identifier.placeless, Option.map_some,
        ScopeArena.declareIn_placeless a root id.name (some next) id.span]
      exact ih _ _

theorem initialFunctions_placeless (ds : Array Declaration) (entries : Array Variable) :
    initialFunctions (ds.map Declaration.placeless) (entries.map Variable.placeless) =
      (initialFunctions ds entries).map (Prod.map id FunctionTree.placeless) := by
  have hfunctions : (ds.map Declaration.placeless).filterMap Declaration.function =
      (ds.filterMap Declaration.function).map FunctionTree.placeless := by
    rw [Array.filterMap_map, Array.map_filterMap]
    rfl
  simp only [initialFunctions, hfunctions, Array.toList_map, List.filterMap_map, List.map_filterMap]
  congr 1
  funext v
  cases hv : v.initializer with
  | none => simp [Variable.placeless, hv]
  | some i =>
    simp only [Function.comp_apply, Variable.placeless, hv, Array.getElem?_map, Option.bind_eq_bind, Option.bind_some]
    cases (ds.filterMap Declaration.function)[i]? <;> rfl

theorem judged_functions (hi : Judges V inner inner') (ctx : Context) (b : Bool) (rs : List Region) :
    ∀ fs : List (String × FunctionTree), Judged (functionsEarly V fs) (fillFunctions inner ctx fs)
      (fillFunctions inner' (ctx.beside b rs) (fs.map (Prod.map id FunctionTree.placeless)))
  | [] => .refl (pure _)
  | (name, f) :: fs =>
    (judged_pushClosure hi ctx f false).bind fun _ => .step (store ctx name) fun _ => .step _ fun _ =>
      judged_functions hi ctx b rs fs

/-- The head of a unit, with the check left out or as it was. -/
abbrev UnitHead.beside (h : UnitHead) (b : Bool) : UnitHead := { h with options := Lowering.beside h.options b }

theorem judged_entry (hi : Judges V inner inner') (h : UnitHead) (fs : List (String × FunctionTree)) (body : List Stmt) :
    Judged (unitEarly V h.kind fs body) (lowerEntry inner h.context fs body)
      (lowerEntry inner' (h.beside b).context (fs.map (Prod.map id FunctionTree.placeless)) (bodyPlaceless body)) := by
  have hbody := judged_body hi body h.context (h.beside b).context ⟨h.kind, []⟩ ⟨rfl, [], rfl, .nil⟩
  refine (judged_functions hi h.context b [] fs).bind fun _ => hbody.fst fun _ => ?_
  rw [show (h.beside b).context.completion = h.context.completion from rfl]
  cases h.context.completion <;> exact .refl _

theorem finish_internal {b : Builder} {f : Fault} (h : b.finish = .error f) : f.kind = .internalError := by
  have hall : ∀ (xs : List (Nat × Label)) (code : Array Instruction),
      xs.foldlM (Builder.resolve b.labels) code = .error f → f.kind = .internalError := by
    intro xs
    induction xs with
    | nil =>
      intro code h
      cases h
    | cons x xs ih =>
      intro code h
      simp only [List.foldlM_cons, Builder.resolve] at h
      cases hp : (b.labels[x.2.index]?).bind LabelState.position with
      | some p =>
        simp only [hp] at h
        exact ih _ h
      | none =>
        simp only [hp] at h
        cases h
        rfl
  rw [Builder.finish, ← Array.foldlM_toList] at h
  exact hall _ _ h

theorem agrees_unit (hi : Judges V inner inner') (h : UnitHead) {body : List Stmt} {a : ScopeArena} {table : BindingTable}
    (ht : ((declareAll h.root (declarations body) a).get h.root).bindings = table) :
    Agrees ScopeArena.placeless (unitEarly V h.kind (initialFunctions (declarations body) table.entries) body)
      (lowerUnit inner h body a) (lowerUnit inner' (h.beside b) (bodyPlaceless body) a.placeless) := by
  have hentries : ((declareAll h.root (declarations body) a).placeless.get h.root).bindings.entries =
      table.entries.map Variable.placeless := by
    rw [ScopeArena.get_placeless, ← ht]
    rfl
  have hentry := judged_entry (b := b) hi h (initialFunctions (declarations body) table.entries) body
    ⟨declareAll h.root (declarations body) a, h.builder⟩
  simp only [lowerUnit, declarations_placeless, declareAll_placeless, hentries, initialFunctions_placeless, ht]
  refine hentry.fst fun _ st => ?_
  obtain ⟨scopes, builder⟩ := st
  have hget : (scopes.placeless.get h.root).storage = (scopes.get h.root).storage ∧
      (scopes.placeless.get h.root).bindings.names = (scopes.get h.root).bindings.names := by
    rw [ScopeArena.get_placeless]
    exact ⟨rfl, BindingTable.names_placeless _⟩
  simp only [State.placeless, hget]
  cases hf : builder.finish with
  | ok code => exact .ok _ scopes
  | error f => exact .apart (.inr (finish_internal hf))

theorem ownNameScope_placeless (f : FunctionTree) (isExpression : Bool) (parent : ScopeRef) (a : ScopeArena) :
    ownNameScope f.placeless isExpression parent a.placeless =
      (ownNameScope f isExpression parent a).map (Prod.map id ScopeArena.placeless) := by
  obtain ⟨_ | id, params, body, span⟩ := f
  · rfl
  · cases isExpression with
    | false => rfl
    | true =>
      simp only [ownNameScope, FunctionTree.placeless, Option.map_some, if_true, ScopeArena.push_placeless]
      change ((a.push (some parent) .callee .static).2.placeless.declareCatch _ id.name .nowhere >>= _) = _
      rw [declareCatch_placeless _ _ _ id.span]
      cases (a.push (some parent) .callee .static).2.declareCatch (a.push (some parent) .callee .static).1 id.name
        id.span <;> rfl

theorem declareParams_placeless (root : ScopeRef) (params : List Identifier) (a : ScopeArena) :
    (params.map Identifier.placeless).foldl (fun a p => (a.declareIn root p.name none p.span).2) a.placeless =
      (params.foldl (fun a p => (a.declareIn root p.name none p.span).2) a).placeless := by
  induction params generalizing a with
  | nil => rfl
  | cons p params ih =>
    simp only [List.map_cons, List.foldl_cons, Identifier.placeless,
      ScopeArena.declareIn_placeless a root p.name none p.span]
    exact ih _

theorem judges_lowerFunction (o : LoweringOptions) (b : Bool) : ∀ n,
    Judges (functionEarly n) (lowerFunction o n) (lowerFunction (beside o b) n)
  | 0 => fun _ _ _ _ _ => .apart (.inr rfl)
  | n + 1 => by
    intro f isExpression s strict a
    obtain ⟨⟨own, a₁⟩, hown⟩ := ownNameScope_total f isExpression s a
    have hown' := ownNameScope_placeless f isExpression s a
    obtain ⟨name, params, body, span⟩ := f
    simp only [hown, Except.map, Prod.map, id, FunctionTree.placeless] at hown'
    have hname : (name.map Identifier.placeless).map Identifier.name = name.map Identifier.name := by cases name <;> rfl
    have hparams : (params.map Identifier.placeless).map Identifier.name = params.map Identifier.name := by
      rw [List.map_map]
      rfl
    have hpush := ScopeArena.adds_push a₁ (some (own.getD s)) .function (storageOf body)
    have hadds := (hpush.foldl_params params).declareAll (declarations body)
    have hunit := agrees_unit (b := b) (judges_lowerFunction o b n)
      { options := o
        kind := .function
        name := name.map Identifier.name
        params := params.map Identifier.name
        root := (a₁.push (some (own.getD s)) .function (storageOf body)).1
        strict := strict || hasUseStrict body
        bindsOwnName := own.isSome } (congrArg Scope.bindings hadds.get)
    rw [← declareParams_placeless] at hunit
    simp only [lowerFunction, functionEarly, hown, hown', bind, Except.bind, FunctionTree.placeless,
      storageOf_placeless, hasUseStrict_placeless, ScopeArena.push_placeless, hname, hparams]
    exact hunit

end Lowering

open Lowering

theorem Program.agrees (p : Program) (o : LoweringOptions) (b : Bool) (kind : UnitKind) (scopeKind : ScopeKind)
    (strict : Bool) :
    Agrees ScopeArena.placeless (p.early kind)
      (lowerUnit (lowerFunction o (bodyNesting p.body 0))
        (programHead o kind strict p (ScopeArena.empty.push none scopeKind .dynamic).1) p.body
        (ScopeArena.empty.push none scopeKind .dynamic).2)
      (lowerUnit (lowerFunction (beside o b) (bodyNesting p.body 0))
        (programHead (beside o b) kind strict p (ScopeArena.empty.push none scopeKind .dynamic).1) (bodyPlaceless p.body)
        (ScopeArena.empty.push none scopeKind .dynamic).2) := by
  have hempty : ScopeArena.empty.placeless = ScopeArena.empty := congrArg ScopeArena.mk Array.map_empty
  have hpush := ScopeArena.empty.push_placeless none scopeKind .dynamic
  rw [hempty] at hpush
  have hscopes : (ScopeArena.empty.push none scopeKind .dynamic).2.placeless =
      (ScopeArena.empty.push none scopeKind .dynamic).2 := (congrArg Prod.snd hpush).symm
  have hadds := (ScopeArena.adds_push .empty none scopeKind .dynamic).declareAll (declarations p.body)
  have hunit := agrees_unit (b := b) (judges_lowerFunction o b (bodyNesting p.body 0))
    (programHead o kind strict p (ScopeArena.empty.push none scopeKind .dynamic).1) (congrArg Scope.bindings hadds.get)
  rwa [hscopes] at hunit

section

variable {p : Program} (hp : bodyHolds FunctionTree.Guarded p.body) (o : LoweringOptions) (kind : UnitKind)
  (scopeKind : ScopeKind) (strict : Bool)
include hp

/-- **Whatever the options, lowering a program fails with its early fault, unless a pool is full.** -/
theorem lowerProgram_early :
    match lowerProgram o kind scopeKind strict p with
    | .ok _ => p.early kind = none
    | .error f => f.isFull = true ∨ p.early kind = some f := by
  have hunit := (p.agrees o true kind scopeKind strict).verdict
  have hprogram : ∀ f, lowerProgram o kind scopeKind strict p = .error f → f.OfProgram := fun f =>
    lowerProgram_ofProgram hp
  simp only [lowerProgram, bind, Except.bind] at hprogram ⊢
  rw [programHead] at hunit
  generalize lowerUnit _ _ _ _ = r at hunit hprogram ⊢
  cases r with
  | ok r => exact hunit
  | error f =>
    refine hunit.imp (fun h => h.resolve_right fun hk => ?_) id
    rcases hprogram f rfl with h | h <;> cases hk.symm.trans h

/-- **The code of a program depends neither on places nor on the check of the stack.** -/
theorem lowerProgram_agrees (b : Bool) :
    lowerProgram (beside o b) kind scopeKind strict p.placeless = lowerProgram o kind scopeKind strict p := by
  have hprogram : ∀ f, lowerProgram o kind scopeKind strict p = .error f → f.OfProgram := fun f =>
    lowerProgram_ofProgram hp
  have hunit := (p.agrees o b kind scopeKind strict).forgets
  simp only [lowerProgram, bind, Except.bind, Program.placeless, hasUseStrict_placeless, bodyNesting_placeless] at hprogram ⊢
  rw [programHead, programHead] at hunit
  generalize lowerUnit (lowerFunction o _) _ _ _ = r at hunit hprogram ⊢
  obtain h | ⟨_, _, _, rfl⟩ := hunit
  · rw [h]
    cases r <;> rfl
  · rcases hprogram _ rfl with h | h <;> cases h

end

theorem early_of_ok {o : LoweringOptions} {kind : UnitKind} {scopeKind : ScopeKind} {strict : Bool}
    (hp : bodyHolds FunctionTree.Guarded p.body) {u : CodeUnit} (h : lowerProgram o kind scopeKind strict p = .ok u) :
    p.early kind = none := by
  have hearly := lowerProgram_early hp o kind scopeKind strict
  rwa [h] at hearly

theorem early_of_error {o : LoweringOptions} {kind : UnitKind} {scopeKind : ScopeKind} {strict : Bool}
    (hp : bodyHolds FunctionTree.Guarded p.body) {f : Fault} (h : lowerProgram o kind scopeKind strict p = .error f) :
    f.isFull = true ∨ p.early kind = some f := by
  have hearly := lowerProgram_early hp o kind scopeKind strict
  rwa [h] at hearly

theorem Lowering.lowerProgram_eq_of_placeless {q : Program} (hp : bodyHolds FunctionTree.Guarded p.body)
    (hq : bodyHolds FunctionTree.Guarded q.body) (h : p.placeless = q.placeless) (o : LoweringOptions)
    (kind : UnitKind) (scopeKind : ScopeKind) (strict : Bool) :
    lowerProgram o kind scopeKind strict p = lowerProgram o kind scopeKind strict q := by
  rw [← lowerProgram_agrees hp o kind scopeKind strict true, h, lowerProgram_agrees hq]

end ScriptEngine
