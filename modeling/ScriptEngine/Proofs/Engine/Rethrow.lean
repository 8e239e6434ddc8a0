/-
Exceptions that pass through a handler on their way out of a script. A script in
an envelope, be it a finalizer that does nothing or a handler that throws what
it has caught, answers what the script itself answers, and leaves the same
output and the same globals behind. Main statement: `eval_envelope`.
-/
import ScriptEngine.Proofs.Engine.History
import ScriptEngine.Proofs.Meaning.Echo

namespace ScriptEngine

open Meaning

/-- The engines have printed the same, and their globals are the same. The second one has more objects
and records, behind those of the first. -/
structure Engine.Echo (e e' : Engine) : Prop where
  output : e'.output = e.output
  global : e'.global = e.global
  globals : ∀ name, e'.store.lookup [e'.global] name = e.store.lookup [e.global] name
  store : ∃ objects records, e'.store.outline = e.store.outline.extended objects records

namespace Engine.Echo

theorem refl (e : Engine) : Echo e e := ⟨rfl, rfl, fun _ => rfl, #[], #[], by rw [Store.extended_empty]⟩

end Engine.Echo

theorem Store.Growing.lookup_extended {s : Store} {r : RecordRef} (h : s.Growing r) (objects : Array Object)
    (records : Array Record) (name : String) : (s.extended objects records).lookup [r] name = s.lookup [r] name := by
  obtain ⟨bindings, hb⟩ := h.bindings
  have hb' : (s.extended objects records).record r = .dynamic bindings := by rw [s.record_extended h.lt, hb]
  by_cases hname : bindings.contains name <;> simp [lookup, find, binds, place?, valueOf?, receiver, hb, hb', hname]

/-! ## Lowering -/

/-- The second text is that of the first in an envelope, wherever things stand in it. The first one has no
`use strict`, which would not be a directive any more. -/
def Envelope.Wraps (w : Envelope) (source source' : String) : Prop :=
  ∃ p q, Program.parse source = .ok p ∧ Program.parse source' = .ok q ∧ hasUseStrict p.body = false ∧
    q.placeless = (w.around p).placeless

theorem compile_early {o : LoweringOptions} {p : Program} (hp : bodyHolds FunctionTree.Guarded p.body)
    (hf : ∀ f, compile o p = .error f → f.isFull = false) :
    (∃ f, compile o p = .error f ∧ p.early .global = some f) ∨ ∃ code, compile o p = .ok code ∧ p.early .global = none := by
  cases hc : compile o p with
  | ok code => exact .inr ⟨code, rfl, early_of_ok hp hc⟩
  | error f =>
    refine .inl ⟨f, rfl, (early_of_error hp hc).resolve_left ?_⟩
    rw [hf f hc]
    exact Bool.false_ne_true

theorem Envelope.Wraps.compile_cases {w : Envelope} {source source' : String} (h : w.Wraps source source')
    {o : LoweringOptions} (hf : ∀ f, compileSource o source = .error f ∨ compileSource o source' = .error f → f.isFull = false) :
    (∃ f, compileSource o source = .error f ∧ compileSource o source' = .error f) ∨
      ∃ p code code', hasUseStrict p.body = false ∧ compileSource o source = .ok code ∧
        compileSource o source' = .ok code' ∧ compile o p = .ok code ∧ compile o (w.around p) = .ok code' := by
  obtain ⟨p, q, hp, hq, hstrict, hw⟩ := h
  have hguarded := Program.parse_guarded hp
  have hsource : compileSource o source = compile o p := by rw [compileSource, hp]
  have hsource' : compileSource o source' = compile o (w.around p) := by
    rw [compileSource, hq]
    exact Lowering.lowerProgram_eq_of_placeless (Program.parse_guarded hq) (w.holds_around hguarded) hw o _ _ _
  rw [hsource, hsource'] at hf ⊢
  have hinner := compile_early hguarded fun f hc => hf f (.inl hc)
  have houter := compile_early (w.holds_around hguarded) fun f hc => hf f (.inr hc)
  rw [w.early_around] at houter
  rcases hinner with ⟨f, hc, hearly⟩ | ⟨code, hc, hearly⟩
  · rcases houter with ⟨f', hc', hearly'⟩ | ⟨code', -, hearly'⟩
    · cases hearly.symm.trans hearly'
      exact .inl ⟨f, hc, hc'⟩
    · cases hearly.symm.trans hearly'
  · rcases houter with ⟨f', -, hearly'⟩ | ⟨code', hc', -⟩
    · cases hearly.symm.trans hearly'
    · exact .inr ⟨p, code, code', hstrict, hc, hc', hc, hc'⟩

/-! ## Runs -/

section

variable {options : EngineOptions} {e : Engine} {W : World} {p : Program} {code : CodeUnit}

theorem run_evaluates (hr : Rel (.full options) e W) (hc : compile options.lowering p = .ok code) {fuel : Nat} {o : Outcome}
    (h : (Machine.script code e).run fuel = some o) :
    ∃ n W', Meaning.runScript (evalFault options.lowering) n p W = some (o.result, W') ∧ Rel (.full options) o.realm W' := by
  have hsim := script_sim rfl (Mode.full_fits options) hr hc (fuel + 2)
  obtain ⟨W', hW, hr', -⟩ := hsim.evaluates (Mode.full_clean _) h (Nat.lt_succ_self fuel)
  exact ⟨fuel + 2, W', hW, hr'⟩

theorem run_of_evaluates (hr : Rel (.full options) e W) (hc : compile options.lowering p = .ok code) {n : Nat}
    {result : Except Raised Value} {W' : World}
    (h : Meaning.runScript (evalFault options.lowering) n p W = some (result, W')) :
    ∃ fuel r, (Machine.script code e).run fuel = some ⟨result, r⟩ ∧ Rel (.full options) r W' :=
  (script_sim rfl (Mode.full_fits options) hr hc n).runs (Mode.full_clean _) h

theorem eval_of_run {source : String} (hr : Rel (.full options) e W)
    (hc : compileSource options.lowering source = .ok code) {fuel : Nat} {o : Outcome} {W' : World}
    (h : (Machine.script code e).run fuel = some o) (hr' : Rel (.full options) o.realm W') :
    e.eval fuel source = some (W'.answer o.result, o.realm) := by
  have ho : e.options = options := hr.options
  simp only [Engine.eval, ho, hc, Realm.runScript_eq, h, Option.map_some, answer_eq rfl hr']

theorem run_of_eval {source : String} (hr : Rel (.full options) e W)
    (hc : compileSource options.lowering source = .ok code) {fuel : Nat} {a : Answer} {e' : Engine}
    (h : e.eval fuel source = some (a, e')) : ∃ result, (Machine.script code e).run fuel = some ⟨result, e'⟩ := by
  have ho : e.options = options := hr.options
  simp only [Engine.eval, ho, hc, Realm.runScript_eq, Option.map_eq_some_iff] at h
  obtain ⟨o, hrun, ha⟩ := h
  have hrealm : o.realm = e' := by rw [← Engine.snd_answer, ha]
  exact ⟨o.result, by rw [hrun, ← hrealm]⟩

theorem Engine.Echo.of_extended {e₁ e₂ : Engine} {objects : Array Object} {records : Array Record}
    (hg : e₁.store.Growing e₁.global) (h₁ : Rel (.full options) e₁ W)
    (h₂ : Rel (.full options) e₂ (W.extended objects records)) : e₁.Echo e₂ := by
  have hrealm₁ : W.realm = e₁.outline := by rw [h₁.realm, Mode.view_linked rfl]
  have hrealm₂ : e₂.outline = { e₁.outline with store := e₁.outline.store.extended objects records } := by
    have h := h₂.realm
    rw [Mode.view_linked rfl, World.extended, hrealm₁] at h
    exact h.symm
  have hstore : e₂.store.outline = e₁.store.outline.extended objects records := congrArg Realm.store hrealm₂
  have hglobal : e₂.outline.global = e₁.outline.global := by rw [hrealm₂]
  have houtput : e₂.outline.output = e₁.outline.output := by rw [hrealm₂]
  refine ⟨houtput, hglobal, fun name => ?_, objects, records, hstore⟩
  rw [show e₂.global = e₁.global from hglobal, ← Store.lookup_outline e₂.store, hstore, ← Store.lookup_outline e₁.store]
  exact Store.Growing.lookup_extended ⟨hg.lt, hg.dynamic⟩ objects records name

end

/-- **Exceptions come out of a handler as they went in.** If a script has no `use strict`, and neither it
nor the script in an envelope needs more room than a unit has, then the script and the script in the
envelope have the same answers: the same value, or the same exception, with an error of the engine
reported in the same way whether or not a handler has seen it. The output and the globals are the same
as well. -/
theorem eval_envelope {options : EngineOptions} {e : Engine} (he : Session options e) {w : Envelope}
    {source source' : String} (hw : w.Wraps source source')
    (hf : ∀ f, compileSource options.lowering source = .error f ∨ compileSource options.lowering source' = .error f →
      f.isFull = false) (a : Answer) :
    (∀ fuel e₁, e.eval fuel source = some (a, e₁) → ∃ fuel' e₂, e.eval fuel' source' = some (a, e₂) ∧ e₁.Echo e₂) ∧
      ∀ fuel e₂, e.eval fuel source' = some (a, e₂) → ∃ fuel' e₁, e.eval fuel' source = some (a, e₁) ∧ e₁.Echo e₂ := by
  obtain ⟨W, hr⟩ := he.rel
  have ho : e.options = options := hr.options
  have hgrowing : ∀ {fuel source a e₁}, e.eval fuel source = some (a, e₁) → e₁.store.Growing e₁.global := by
    intro fuel source a e₁ heval
    obtain ⟨past, h⟩ := session_iff_history.1 (he.eval heval)
    exact h.origin.2.1
  rcases hw.compile_cases hf with ⟨f, hc, hc'⟩ | ⟨p, code, code', hstrict, hsource, hsource', hc, hc'⟩
  · have heval : ∀ fuel, e.eval fuel source = some (.error (.report f.kind f.message), e) := fun fuel => by
      simp only [Engine.eval, ho, hc]
    have heval' : ∀ fuel, e.eval fuel source' = some (.error (.report f.kind f.message), e) := fun fuel => by
      simp only [Engine.eval, ho, hc']
    refine ⟨fun fuel e₁ h => ?_, fun fuel e₂ h => ?_⟩
    · cases (heval fuel).symm.trans h
      exact ⟨0, e, heval' 0, .refl e⟩
    · cases (heval' fuel).symm.trans h
      exact ⟨0, e, heval 0, .refl e⟩
  · have hecho := fun n => (echoes_runScript w hstrict (evalFault options.lowering) n W).answer
    refine ⟨fun fuel e₁ h => ?_, fun fuel e₂ h => ?_⟩
    · obtain ⟨result, hrun⟩ := run_of_eval hr hsource h
      obtain ⟨n, W₁, hW₁, hr₁⟩ := run_evaluates hr hc hrun
      rcases hecho n with ⟨hnone, -⟩ | ⟨x, x', V, objects, records, hV, hV', hanswer⟩
      · cases hW₁.symm.trans hnone
      · cases hW₁.symm.trans hV
        obtain ⟨fuel', e₂, hrun', hr₂⟩ := run_of_evaluates hr hc' hV'
        cases h.symm.trans (eval_of_run hr hsource hrun hr₁)
        refine ⟨fuel', e₂, ?_, .of_extended (hgrowing h) hr₁ hr₂⟩
        rw [eval_of_run hr hsource' hrun' hr₂, hanswer]
    · obtain ⟨result, hrun⟩ := run_of_eval hr hsource' h
      obtain ⟨n, W₂, hW₂, hr₂⟩ := run_evaluates hr hc' hrun
      rcases hecho n with ⟨-, hnone⟩ | ⟨x, x', V, objects, records, hV, hV', hanswer⟩
      · cases hW₂.symm.trans hnone
      · cases hW₂.symm.trans hV'
        obtain ⟨fuel', e₁, hrun', hr₁⟩ := run_of_evaluates hr hc hV
        cases h.symm.trans (eval_of_run hr hsource' hrun hr₂)
        have heval := eval_of_run hr hsource hrun' hr₁
        rw [← hanswer] at heval
        exact ⟨fuel', e₁, heval, .of_extended (hgrowing heval) hr₁ hr₂⟩

/-! ## A script -/

/-- The statements read a property of `null`, and nothing else. -/
def readsNull (key : String) : List Stmt → Bool
  | [⟨[], _, .expression (.member .null property)⟩] => property.name == key
  | _ => false

/-- The block of an attempt whose handler throws what it has caught. -/
def rethrown? : List Stmt → Option (List Stmt)
  | [⟨[], _, .attempt block (some ⟨param, [⟨[], _, .throws (.identifier id)⟩]⟩) none⟩] =>
    if param.name == id.name then some block else none
  | _ => none

theorem placeless_of_readsNull {key : String} {body : List Stmt} (h : readsNull key body = true) :
    bodyPlaceless body = [⟨[], .nowhere, .expression (.member .null ⟨key, .nowhere⟩)⟩] := by
  unfold readsNull at h
  split at h
  next property =>
    cases beq_iff_eq.1 h
    rfl
  · cases h

theorem placeless_of_rethrown? {body block : List Stmt} (h : rethrown? body = some block) :
    ∃ param, ∀ block', bodyPlaceless block' = bodyPlaceless block →
      bodyPlaceless body = bodyPlaceless ((Envelope.rethrow param).around ⟨block'⟩).body := by
  unfold rethrown? at h
  split at h
  next param _ id =>
    split at h
    next hname =>
      cases h
      refine ⟨param, fun block' hblock => ?_⟩
      simp [Envelope.around, Envelope.catches, Envelope.finalizes, bodyPlaceless, Stmt.placeless, StmtKind.placeless,
        handlerPlaceless, finalizerPlaceless, Expr.placeless, Identifier.placeless, hblock, beq_iff_eq.1 hname]
    · cases h
  · cases h

def reportsTypeError : Answer → Bool
  | .error (.report .typeError _) => true
  | _ => false

theorem eq_of_reportsTypeError {a : Answer} (h : reportsTypeError a = true) :
    ∃ message, a = .error (.report .typeError message) := by
  unfold reportsTypeError at h
  split at h
  · exact ⟨_, rfl⟩
  · cases h

theorem wraps_of_readsNull (source source' key : String)
    (h : (Program.parse source).toOption.any (fun p => readsNull key p.body && !hasUseStrict p.body) = true)
    (h' : (Program.parse source').toOption.any (fun q => (rethrown? q.body).any (readsNull key)) = true) :
    ∃ param, (Envelope.rethrow param).Wraps source source' := by
  obtain ⟨p, hp, hnull⟩ := (Option.any_eq_true _ _).1 h
  obtain ⟨hnull, hstrict⟩ := Bool.and_eq_true_iff.1 hnull
  obtain ⟨q, hq, hnull'⟩ := (Option.any_eq_true _ _).1 h'
  obtain ⟨block, hblock, hnull'⟩ := (Option.any_eq_true _ _).1 hnull'
  obtain ⟨param, hbody⟩ := placeless_of_rethrown? hblock
  refine ⟨param, p, q, eq_ok_of_toOption hp, eq_ok_of_toOption hq, by simpa using hstrict, ?_⟩
  rw [Program.placeless, Program.placeless]
  exact congrArg Program.mk (hbody p.body ((placeless_of_readsNull hnull).trans (placeless_of_readsNull hnull').symm))

theorem not_isFull_of_lowered {o : LoweringOptions} {source source' : String}
    (h : ((compileSource o source).toOption.isSome && (compileSource o source').toOption.isSome) = true) :
    ∀ f, compileSource o source = .error f ∨ compileSource o source' = .error f → f.isFull = false := by
  rintro f (hc | hc) <;> simp [hc, Except.toOption] at h

/-- The script fails with a type error, and so does the script in an envelope. -/
theorem eval_envelope_typeError : ∃ message fuel e,
    Engine.eval fuel "try \x7b null.x; \x7d catch (e) \x7b throw e; \x7d" (.start .standard) =
      some (.error (.report .typeError message), e) := by
  obtain ⟨param, hwraps⟩ := wraps_of_readsNull "null.x;" "try \x7b null.x; \x7d catch (e) \x7b throw e; \x7d" "x"
    (by decide +kernel) (by decide +kernel)
  have heval : (Engine.eval 20 "null.x;" (.start .standard)).any (fun x => reportsTypeError x.1) = true := by decide +kernel
  obtain ⟨x, heval, hreports⟩ := (Option.any_eq_true _ _).1 heval
  obtain ⟨message, ha⟩ := eq_of_reportsTypeError hreports
  have heval : Engine.eval 20 "null.x;" (.start .standard) = some (.error (.report .typeError message), x.2) := by
    rw [heval, ← ha]
  obtain ⟨fuel, e, heval', -⟩ := (eval_envelope (Session.start : Session .standard _) hwraps
    (not_isFull_of_lowered (by decide +kernel)) _).1 20 x.2 heval
  exact ⟨message, fuel, e, heval'⟩

end ScriptEngine
