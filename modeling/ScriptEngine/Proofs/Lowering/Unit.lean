/-
Units lay out their code. Main statements: `Lowered.unit` about functions and
`lowerProgram_ok` about scripts and the code given to `eval`.
-/
import ScriptEngine.Proofs.Lowering.Statement

namespace ScriptEngine

namespace Lowering

open Layout (Point Code Setting)
open Meaning (Source)

variable {B : Builder} {o : LoweringOptions} {a : ScopeArena} {S : Label → Prop} {ctx : Context} {c : Setting}
  {inner : FunctionLowering}
variable {u : CodeUnit} {kind : UnitKind} {scopeKind : ScopeKind} {strict : Bool} {p : Program}

theorem lays_functions (hc : Fits B a ctx c) (hin : InnerLays ctx.options inner) :
    ∀ fs : List (String × FunctionTree),
      Lays B a S (fillFunctions inner ctx fs) S (Layout.functionsAt c fs)
  | [] => Lays.pure
  | (name, f) :: fs =>
    (Lays.pushClosure hc hin f false).seq ((Lays.store hc name).seq
      ((Lays.emit hc.unit rfl _).seq (lays_functions hc hin fs)))

theorem lays_entry (ho : ctx.options = o) (hc : Fits B a ctx c) (hin : InnerLays o inner)
    (fs : List (String × FunctionTree)) (body : List Stmt) :
    Lays B a S (lowerEntry inner ctx fs body) S (Layout.entryAt c fs body) := by
  refine (lays_functions hc (ho ▸ hin) fs).seq ((lays_body hin body ho hc).seq ?_)
  rw [hc.completion]
  cases ctx.completion with
  | some t => exact (Lays.emitWith hc.unit rfl _ _).seq (Lays.emit hc.unit rfl _)
  | none => exact (Lays.emit hc.unit rfl _).seq (Lays.emit hc.unit rfl _)

/-! ## One unit -/

/-- The unit of a head whose scope ends up with the given storage and table. -/
def UnitHead.outline (h : UnitHead) (storage : Storage) (table : BindingTable) : CodeUnit :=
  { name := h.name
    kind := h.kind
    params := h.params
    storage
    bindings := table.names
    instructions := #[]
    constants := #[]
    functions := #[]
    temporaries := 0
    strict := h.strict
    bindsOwnName := h.bindsOwnName }

def UnitHead.builder (h : UnitHead) : Builder :=
  { Builder.empty with temporaries := if h.context.completion.isSome then 1 else 0 }

theorem lowerUnit_eq {h : UnitHead} {body : List Stmt} {scopes scopes' : ScopeArena}
    (hu : lowerUnit inner h body scopes = .ok (u, scopes')) :
    ∃ b, lowerEntry inner h.context (initialFunctions (declarations body)
          ((declareAll h.root (declarations body) scopes).get h.root).bindings.entries) body
        ⟨declareAll h.root (declarations body) scopes, h.builder⟩ = .ok ((), ⟨scopes', b⟩) ∧
      Finished b u ∧
      u.outline = h.outline (scopes'.get h.root).storage (scopes'.get h.root).bindings := by
  simp only [lowerUnit] at hu
  cases he : lowerEntry inner h.context (initialFunctions (declarations body)
      ((declareAll h.root (declarations body) scopes).get h.root).bindings.entries) body
      ⟨declareAll h.root (declarations body) scopes, h.builder⟩ with
  | error e =>
    rw [UnitHead.builder] at he
    simp only [he] at hu
    cases hu
  | ok r =>
    rw [UnitHead.builder] at he
    simp only [he, bind, Except.bind] at hu
    cases hf : r.2.builder.finish with
    | error e =>
      rw [hf] at hu
      cases hu
    | ok code =>
      rw [hf] at hu
      cases hu
      exact ⟨r.2.builder, rfl, ⟨hf, rfl, rfl, rfl⟩, rfl⟩

theorem lowerUnit_ok {h : UnitHead} {body : List Stmt} {scopes scopes' : ScopeArena} (hin : InnerLays h.options inner)
    {sc : Scope} {env : Env} (hadds : a.Adds h.root sc (declareAll h.root (declarations body) scopes))
    (hsees : (declareAll h.root (declarations body) scopes).Sees h.root env)
    (hu : lowerUnit inner h body scopes = .ok (u, scopes')) :
    a.Extends scopes' ∧ u.outline = h.outline sc.storage sc.bindings ∧ u.Closes ∧
      ∃ q, q.pc = u.instructions.size ∧ Layout.entryAt ⟨u, h.options, env, h.strict, h.context.completion, []⟩
        (initialFunctions (declarations body) sc.bindings.entries) body ⟨0, h.builder.temporaries⟩ q := by
  obtain ⟨b, he, hfin, hout⟩ := lowerUnit_eq hu
  have hfits : Fits b (declareAll h.root (declarations body) scopes) h.context
      ⟨u, h.options, env, h.strict, h.context.completion, []⟩ := ⟨hfin, rfl, hsees, rfl, rfl, .nil⟩
  have l := lays_entry rfl hfits hin _ body (S := fun _ => False) _ _ (.refl _) (Builder.ok_empty _)
    (fun _ h => h.elim) he
  have hget := l.scopes.get h.root hadds.lt
  rw [hget, hadds.get] at hout
  refine ⟨hadds.grows.trans l.scopes, hout, fun k v hv => ?_, here b, (Builder.size_finish hfin.instructions).symm, ?_⟩
  · have hnone : ¬ (#[] : Array CodeUnit)[k]? = some v := by simp
    obtain ⟨hv, p, -, hp, hplain⟩ := (l.gains k v (hfin.functions ▸ hv)).resolve_left hnone
    exact ⟨hv, p, (Builder.finish_plain hfin.instructions hplain).trans hp⟩
  · rw [← hadds.get]
    exact l.code ⟨l.ok, .refl _, fun _ _ _ => rfl⟩

/-! ## Functions -/

def ownEnv (src : Source) (env : Env) : Env :=
  if src.bindsOwnName then #[src.outline.name.getD ""] :: env else env

def bodyEnv (src : Source) (env : Env) : Env :=
  match storageOf src.tree.body with
  | .static => src.table.names :: ownEnv src env
  | .dynamic => []

theorem ownNameScope_ok {f : FunctionTree} {isExpression : Bool} {parent scopes own scopes' env} (strict : Bool)
    (hs : ScopeArena.Sees scopes parent env) (h : ownNameScope f isExpression parent scopes = .ok (own, scopes')) :
    scopes.Extends scopes' ∧ scopes'.Sees (own.getD parent) (ownEnv ⟨f, isExpression, strict⟩ env) ∧
      own.isSome = Source.bindsOwnName ⟨f, isExpression, strict⟩ := by
  obtain ⟨id, params, body, span⟩ := f
  cases id with
  | none =>
    cases h
    cases isExpression <;> exact ⟨.refl _, hs, rfl⟩
  | some id =>
    cases isExpression with
    | false =>
      cases h
      exact ⟨.refl _, hs, rfl⟩
    | true =>
      simp only [ownNameScope, if_true] at h
      cases hd : (scopes.push (some parent) .callee .static).2.declareCatch
          (scopes.push (some parent) .callee .static).1 id.name id.span with
      | error e =>
        simp only [hd, bind, Except.bind] at h
        cases h
      | ok p =>
        simp only [hd, bind, Except.bind] at h
        cases h
        have hadds := (ScopeArena.adds_push scopes (some parent) .callee .static).declareCatch rfl hd
        have hsees := hadds.sees hs rfl rfl (BindingTable.ok_empty.declare id.name none id.span)
        rw [BindingTable.names_declare_empty] at hsees
        exact ⟨hadds.grows, hsees, rfl⟩

def functionHead (o : LoweringOptions) (src : Source) (root : ScopeRef) : UnitHead :=
  { options := o
    kind := .function
    name := src.tree.id.map Identifier.name
    params := src.tree.params.map Identifier.name
    root
    strict := src.isStrict
    bindsOwnName := src.bindsOwnName }

theorem lowerFunction_ok {n : Nat} (src : Source) {s scopes env u scopes'} (hs : ScopeArena.Sees scopes s env)
    (hin : InnerLays o (lowerFunction o n))
    (h : lowerFunction o (n + 1) src.tree src.isExpression s src.strict scopes = .ok (u, scopes')) :
    scopes.Extends scopes' ∧ u.outline = src.outline ∧ u.Closes ∧
      ∃ q, q.pc = u.instructions.size ∧
        Layout.entryAt ⟨u, o, bodyEnv src env, src.isStrict, none, []⟩ src.body.functions src.tree.body ⟨0, 0⟩ q := by
  simp only [lowerFunction, bind, Except.bind] at h
  cases hown : ownNameScope src.tree src.isExpression s scopes with
  | error e =>
    rw [hown] at h
    cases h
  | ok p =>
    obtain ⟨own, scopes₁⟩ := p
    rw [hown] at h
    obtain ⟨hext, hsees, hsome⟩ := ownNameScope_ok src.strict hs hown
    simp only [hsome] at h
    have hadds := ((ScopeArena.adds_push scopes₁ (some (own.getD s)) .function
      (storageOf src.tree.body)).foldl_params src.tree.params).declareAll (declarations src.tree.body)
    have hroot : (Lowering.declareAll (scopes₁.push (some (own.getD s)) .function (storageOf src.tree.body)).1
        (declarations src.tree.body) (src.tree.params.foldl (fun b p => (b.declareIn
          (scopes₁.push (some (own.getD s)) .function (storageOf src.tree.body)).1 p.name none p.span).2)
          (scopes₁.push (some (own.getD s)) .function (storageOf src.tree.body)).2)).Sees
        (scopes₁.push (some (own.getD s)) .function (storageOf src.tree.body)).1 (bodyEnv src env) := by
      unfold bodyEnv
      cases hst : storageOf src.tree.body with
      | «static» =>
        rw [hst] at hadds
        exact hadds.sees hsees rfl rfl (entryTable_ok src.tree.params (declarations src.tree.body))
      | dynamic =>
        rw [hst] at hadds
        exact hadds.sees_nil rfl
    obtain ⟨hext', hout, hfunctions, q, hq⟩ := lowerUnit_ok (h := functionHead o src _) hin hadds hroot h
    exact ⟨hext.trans hext', hout, hfunctions, q, hq⟩

theorem innerLays_lowerFunction (o : LoweringOptions) : ∀ n, InnerLays o (lowerFunction o n)
  | 0 => by
    intro f isExpression s strict a u a' env _ h
    cases h
  | n + 1 => by
    intro f isExpression s strict a u a' env hs h
    have hf := lowerFunction_ok ⟨f, isExpression, strict⟩ hs (innerLays_lowerFunction o n) h
    exact ⟨hf.1, n + 1, a, s, a', hs, h⟩

/-! ## Programs -/

def programHead (o : LoweringOptions) (kind : UnitKind) (strict : Bool) (p : Program) (root : ScopeRef) :
    UnitHead :=
  { options := o
    kind
    name := none
    params := []
    root
    strict := strict || o.isStrict || hasUseStrict p.body
    bindsOwnName := false }

theorem lowerProgram_eq (h : lowerProgram o kind scopeKind strict p = .ok u) :
    ∃ pushed scopes',
      ScopeArena.empty.push none scopeKind .dynamic = pushed ∧
      lowerUnit (lowerFunction o (bodyNesting p.body 0)) (programHead o kind strict p pushed.1) p.body pushed.2 =
        .ok (u, scopes') := by
  simp only [lowerProgram, bind, Except.bind] at h
  generalize hpush : ScopeArena.empty.push none scopeKind .dynamic = pushed at h
  cases hu : lowerUnit (lowerFunction o (bodyNesting p.body 0)) (programHead o kind strict p pushed.1)
      p.body pushed.2 with
  | error e =>
    rw [programHead] at hu
    simp only [hu] at h
    cases h
  | ok r =>
    have hu' := hu
    rw [programHead] at hu'
    simp only [hu'] at h
    cases h
    exact ⟨pushed, r.2, rfl, hu⟩

/-- **The code of a program is laid out from its entry on; its names are looked up when it runs.** -/
theorem lowerProgram_ok (hkind : kind ≠ .function) (hscope : scopeKind.storage .dynamic = .dynamic)
    (h : lowerProgram o kind scopeKind strict p = .ok u) :
    u.bindings = (Meaning.programTable p).names ∧
      u.strict = (Meaning.programBody p (strict || o.isStrict)).strict ∧ u.Closes ∧
      ∃ q, q.pc = u.instructions.size ∧
        Layout.entryAt ⟨u, o, [], (Meaning.programBody p (strict || o.isStrict)).strict, some 0, []⟩
          (Meaning.programBody p (strict || o.isStrict)).functions p.body ⟨0, 1⟩ q := by
  obtain ⟨pushed, scopes', hpush, hu⟩ := lowerProgram_eq h
  have hkind : (kind == .function) = false := by simpa using hkind
  have hadds := ScopeArena.adds_push .empty none scopeKind .dynamic
  rw [hpush] at hadds
  have hadds := hadds.declareAll (declarations p.body)
  have hsees := hadds.sees_nil (by simp [Scope.isOpaque, hscope])
  obtain ⟨-, hout, hfunctions, q, hq⟩ := lowerUnit_ok (h := programHead o kind strict p pushed.1)
    (innerLays_lowerFunction o _) hadds hsees hu
  have hbindings := congrArg CodeUnit.bindings hout
  have hstrict := congrArg CodeUnit.strict hout
  simp only [UnitHead.context, UnitHead.builder, programHead, hkind, Bool.false_eq_true, if_false,
    Option.isSome_some, if_true] at hq
  exact ⟨hbindings, hstrict, hfunctions, q, hq⟩

theorem lowerProgram_kind (h : lowerProgram o kind scopeKind strict p = .ok u) : u.kind = kind := by
  obtain ⟨pushed, scopes', -, hu⟩ := lowerProgram_eq h
  obtain ⟨-, -, -, hout⟩ := lowerUnit_eq hu
  exact congrArg CodeUnit.kind hout

theorem lowerProgram_storage (hscope : scopeKind.storage .dynamic = .dynamic)
    (h : lowerProgram o kind scopeKind strict p = .ok u) :
    u.storage = .dynamic := by
  obtain ⟨pushed, scopes', hpush, hu⟩ := lowerProgram_eq h
  have hadds := ScopeArena.adds_push .empty none scopeKind .dynamic
  rw [hpush] at hadds
  have hadds := hadds.declareAll (declarations p.body)
  have hsees := hadds.sees_nil (by simp [Scope.isOpaque, hscope])
  obtain ⟨-, hout, -⟩ := lowerUnit_ok (h := programHead o kind strict p pushed.1)
    (innerLays_lowerFunction o _) hadds hsees hu
  exact (congrArg CodeUnit.storage hout).trans hscope

end Lowering

theorem eq_ok_of_toOption {ε α : Type} {x : Except ε α} {a : α} (h : x.toOption = some a) : x = .ok a := by
  cases x with
  | error e => cases h
  | ok b => rw [Option.some.inj h]

/-- **The code of a function is laid out from its entry on.** -/
theorem Lowered.unit {o : LoweringOptions} {src : Meaning.Source} {env : Env} {u : CodeUnit}
    (h : Lowered o env src u) :
    u.outline = src.outline ∧ u.Closes ∧
      ∃ q, q.pc = u.instructions.size ∧
        Layout.entryAt ⟨u, o, Lowering.bodyEnv src env, src.isStrict, none, []⟩ src.body.functions src.tree.body
          ⟨0, 0⟩ q := by
  obtain ⟨n, a, s, a', hs, h⟩ := h
  cases n with
  | zero => cases h
  | succ n => exact (Lowering.lowerFunction_ok src hs (Lowering.innerLays_lowerFunction o n) h).2

end ScriptEngine
