/-
Scripts run one after another on an engine. What the engine answers is what
evaluating the scripts' trees gives (`evalAll_iff`). No script comes to a state
that the machine was not made for (`session_safe`), and slots are always those
of the variables that they were chosen for (`session_slots`).
-/
import ScriptEngine.Proofs.Engine.Script
import ScriptEngine.Proofs.Lowering.Discipline
import ScriptEngine.Proofs.Tree.Parsed

namespace ScriptEngine

open Meaning

variable {options : EngineOptions} {e : Engine} {source : String} {m : Machine}

/-! ## The comparison -/

def Mode.full (options : EngineOptions) : Mode := ⟨options, evalFault options.lowering, fun _ => False, true⟩

theorem Mode.full_fits (options : EngineOptions) : (Mode.full options).Fits := by
  intro source strict p hp
  cases hc : compileEval (full options).options.lowering strict p with
  | ok code => simp only [full, evalFault, show compileEval options.lowering strict p = .ok code from hc]
  | error f =>
    refine .inr ⟨?_, (Lowering.lowerProgram_ofProgram (Program.parse_guarded hp) hc).visible⟩
    simp only [full, evalFault, show compileEval options.lowering strict p = .error f from hc]

theorem Mode.full_clean (m : Machine) : (full options).Clean m := fun _ _ ⟨_, _, _, h, _⟩ => h

def Store.Untouched (s : Store) : Prop := ∀ (i : Nat) code scope, s.callables[i]? ≠ some (.closure code scope)

theorem Store.untouched_installGlobals (s : Store) (global : RecordRef) (h : s.Untouched) :
    (s.installGlobals global).Untouched := by
  unfold Store.installGlobals
  generalize builtinGlobals = globals
  induction globals generalizing s with
  | nil => exact h
  | cons g globals ih =>
    rw [List.foldl_cons]
    refine ih _ fun i code scope => ?_
    rw [(Store.keeps_setVariable _ _ _ _).callables]
    cases g.2 with
    | constant v =>
      rw [GlobalValue.make, (Store.keeps_declare _ _ _ _).callables]
      exact h i code scope
    | builtin b =>
      simp only [GlobalValue.make, Store.addCallable, (Store.keeps_declare _ _ _ _).callables, Array.getElem?_push]
      split
      · simp
      · exact h i code scope

theorem Realm.untouched_start (options : EngineOptions) : (start options).store.Untouched := by
  have hs : (start options).store =
      Store.installGlobals (Store.empty.addRecord (.dynamic ∅)).2 (Store.empty.addRecord (.dynamic ∅)).1 := by rw [start]
  have hempty : (Store.empty.addRecord (.dynamic ∅)).2.Untouched := fun i code scope h => by
    simp [Store.addRecord, Store.empty] at h
  rw [hs]
  exact Store.untouched_installGlobals _ _ hempty

theorem rel_start {M : Mode} (hl : M.linked = true) : Rel M (.start M.options) (.start M.options) :=
  ⟨(M.view_linked hl _).symm, rfl, fun _ i code scope hi => (Realm.untouched_start _ i code scope hi).elim⟩

/-! ## One script -/

theorem Failure.ofRaised_outline (s : Store) (e : Raised) : ofRaised s.outline e = ofRaised s e := by
  cases e with
  | fault _ => rfl
  | thrown v =>
    cases v with
    | object r => simp only [ofRaised, reported?, Store.object_outline, Store.text_outline]
    | _ => rfl

theorem Failure.kindOfName?_ne (name : String) : kindOfName? name ≠ some .internalError := by
  unfold kindOfName?
  split <;> exact nofun

theorem ofRaised_ne {s : Store} {e : Raised} (h : e.Visible) (message : String) :
    Failure.ofRaised s e ≠ .report .internalError message := by
  cases e with
  | fault f => exact fun hf => h (Failure.report.inj hf).1
  | thrown v =>
    rw [Failure.ofRaised]
    cases hv : Failure.reported? s v with
    | none => exact nofun
    | some p =>
      obtain ⟨kind, text⟩ := p
      intro hf
      cases hf
      cases v with
      | object r =>
        simp only [Failure.reported?] at hv
        split at hv
        · simp only [Option.map_eq_some_iff, Prod.mk.injEq] at hv
          obtain ⟨kind, hk, rfl, -⟩ := hv
          exact Failure.kindOfName?_ne _ hk
        · cases hv
      | _ => cases hv

section

variable {options : EngineOptions} {e : Engine} {W : World} {source : String}
variable {fuel : Nat}

theorem compileSource_eq_ok {o : LoweringOptions} {source : String} {code : CodeUnit}
    (h : compileSource o source = .ok code) : ∃ p, Program.parse source = .ok p ∧ compile o p = .ok code := by
  unfold compileSource at h
  cases hp : Program.parse source with
  | error cause => rw [hp] at h; cases h
  | ok p => rw [hp] at h; exact ⟨p, rfl, h⟩

theorem script_cases (o : LoweringOptions) (source : String) :
    (∃ f, compileSource o source = .error f ∧ readScript o source = .error f ∧ f.OfProgram) ∨
      ∃ p code, compileSource o source = .ok code ∧ readScript o source = .ok p ∧ compile o p = .ok code := by
  unfold compileSource readScript
  cases hp : Program.parse source with
  | error cause => exact .inl ⟨_, rfl, rfl, Fault.ofProgram_source cause⟩
  | ok p =>
    dsimp only
    cases hc : compile o p with
    | error f => exact .inl ⟨f, rfl, rfl, Lowering.lowerProgram_ofProgram (Program.parse_guarded hp) hc⟩
    | ok code => exact .inr ⟨p, code, rfl, rfl, hc⟩

theorem answer_eq {M : Mode} (hl : M.linked = true) {o : Outcome} (hr : Rel M o.realm W) :
    Engine.answer o = (W.answer o.result, o.realm) := by
  rw [World.answer, hr.realm, Mode.view_linked hl, Realm.outline_store, funext (Failure.ofRaised_outline o.realm.store)]
  cases hresult : o.result <;> rw [Engine.answer, hresult] <;> rfl

theorem eval_evaluates (hr : Rel (.full options) e W) {a : Answer} {e' : Engine}
    (h : e.eval fuel source = some (a, e')) :
    (∃ W', W.eval options (fuel + 2) source = some (a, W') ∧ Rel (.full options) e' W') ∧
      ∀ message, a ≠ .error (.report .internalError message) := by
  have ho : e.options = options := hr.options
  obtain ⟨f, hc, hs, hf⟩ | ⟨p, code, hc, hs, hp⟩ := script_cases options.lowering source
  · simp only [Engine.eval, ho, hc] at h
    cases h
    exact ⟨⟨W, by simp only [World.eval, hs], hr⟩, fun message ha => hf.visible (Failure.report.inj (Except.error.inj ha)).1⟩
  · simp only [Engine.eval, ho, hc, Realm.runScript_eq, Option.map_eq_some_iff] at h
    obtain ⟨o, hrun, ha⟩ := h
    have hsim := script_sim rfl (Mode.full_fits options) hr hp (fuel + 2)
    obtain ⟨W', hW, hr', hv⟩ := hsim.evaluates (Mode.full_clean _) hrun (Nat.lt_succ_self fuel)
    rw [answer_eq rfl hr'] at ha
    cases ha
    have hW : Meaning.runScript (evalFault options.lowering) (fuel + 2) p W = some (o.result, W') := hW
    refine ⟨⟨W', by simp only [World.eval, hs, hW, Option.map_some], hr'⟩, fun message ha => ?_⟩
    cases hres : o.result with
    | ok v => rw [hres] at ha; cases ha
    | error err =>
      rw [hres] at ha
      exact ofRaised_ne (hv err hres) message (Except.error.inj ha)

theorem eval_runs (hr : Rel (.full options) e W) {n : Nat} {a : Answer} {W' : World}
    (h : W.eval options n source = some (a, W')) :
    ∃ fuel e', e.eval fuel source = some (a, e') ∧ Rel (.full options) e' W' := by
  have ho : e.options = options := hr.options
  obtain ⟨f, hc, hs, -⟩ | ⟨p, code, hc, hs, hp⟩ := script_cases options.lowering source
  · simp only [World.eval, hs] at h
    cases h
    exact ⟨0, e, by simp only [Engine.eval, ho, hc], hr⟩
  · simp only [World.eval, hs, Option.map_eq_some_iff] at h
    obtain ⟨⟨result, V⟩, hV, ha⟩ := h
    cases ha
    obtain ⟨fuel, r, hrun, hr'⟩ := (script_sim rfl (Mode.full_fits options) hr hp n).runs (Mode.full_clean _) hV
    have hanswer := answer_eq rfl (o := ⟨result, r⟩) hr'
    exact ⟨fuel, r, by simp only [Engine.eval, ho, hc, Realm.runScript_eq, hrun, Option.map_some, hanswer], hr'⟩

theorem Engine.eval_mono {fuel' : Nat} {x : Answer × Engine} (h : e.eval fuel source = some x) (hf : fuel ≤ fuel') :
    e.eval fuel' source = some x := by
  rw [Engine.eval] at h ⊢
  cases hc : compileSource e.options.lowering source with
  | error f => rw [hc] at h; exact h
  | ok code =>
    rw [hc] at h
    simp only [Realm.runScript_eq, Option.map_eq_some_iff] at h ⊢
    obtain ⟨o, hrun, ha⟩ := h
    exact ⟨o, Machine.run_eq_some.2 (Step.after_of_le (Machine.run_eq_some.1 hrun) hf), ha⟩

theorem Engine.evalAll_mono {fuel' : Nat} (hf : fuel ≤ fuel') :
    ∀ {sources : List String} {e : Engine} {x : List Answer × Engine},
      Engine.evalAll fuel sources e = some x → Engine.evalAll fuel' sources e = some x
  | [], _, _, h => h
  | source :: sources, e, x, h => by
    simp only [Engine.evalAll, Option.bind_eq_bind, Option.bind_eq_some_iff] at h ⊢
    obtain ⟨⟨a, e'⟩, h₁, ⟨as, e''⟩, h₂, h₃⟩ := h
    exact ⟨(a, e'), Engine.eval_mono h₁ hf, (as, e''), Engine.evalAll_mono hf h₂, h₃⟩

end

/-! ## Sequences of scripts -/

theorem evalAll_evaluates {options : EngineOptions} {fuel : Nat} :
    ∀ {sources : List String} {e e' : Engine} {W : World} {as : List Answer}, Rel (.full options) e W →
      Engine.evalAll fuel sources e = some (as, e') →
      ∃ W', W.evalAll options (fuel + 2) sources = some (as, W') ∧ Rel (.full options) e' W'
  | [], e, e', W, as, hr, h => by
    cases h
    exact ⟨W, rfl, hr⟩
  | source :: sources, e, e', W, as, hr, h => by
    simp only [Engine.evalAll, Option.bind_eq_bind, Option.bind_eq_some_iff] at h
    obtain ⟨⟨a, e₁⟩, h₁, ⟨as, e₂⟩, h₂, h₃⟩ := h
    cases h₃
    obtain ⟨⟨W₁, hW₁, hr₁⟩, -⟩ := eval_evaluates hr h₁
    obtain ⟨W₂, hW₂, hr₂⟩ := evalAll_evaluates hr₁ h₂
    exact ⟨W₂, by
      simp only [World.evalAll, hW₁, Option.bind_eq_bind, Option.bind_some, hW₂]
      rfl, hr₂⟩

theorem evalAll_runs {options : EngineOptions} {n : Nat} :
    ∀ {sources : List String} {e : Engine} {W W' : World} {as : List Answer}, Rel (.full options) e W →
      W.evalAll options n sources = some (as, W') →
      ∃ fuel e', Engine.evalAll fuel sources e = some (as, e') ∧ Rel (.full options) e' W'
  | [], e, W, W', as, hr, h => by
    cases h
    exact ⟨0, e, rfl, hr⟩
  | source :: sources, e, W, W', as, hr, h => by
    simp only [World.evalAll, Option.bind_eq_bind, Option.bind_eq_some_iff] at h
    obtain ⟨⟨a, W₁⟩, h₁, ⟨as, W₂⟩, h₂, h₃⟩ := h
    cases h₃
    obtain ⟨fuel₁, e₁, he₁, hr₁⟩ := eval_runs hr h₁
    obtain ⟨fuel₂, e₂, he₂, hr₂⟩ := evalAll_runs hr₁ h₂
    -- One number of steps that suffices for all of them.
    have he₁ := Engine.eval_mono he₁ (Nat.le_max_left fuel₁ fuel₂)
    have he₂ := Engine.evalAll_mono (Nat.le_max_right fuel₁ fuel₂) he₂
    exact ⟨max fuel₁ fuel₂, e₂, by
      simp only [Engine.evalAll, he₁, Option.bind_eq_bind, Option.bind_some, he₂]
      rfl, hr₂⟩

/-- **The code of scripts runs as their trees are evaluated.** An engine answers a sequence of
scripts, and is left with a realm, just when evaluating the trees gives these answers and this
realm: finalizers run as evaluation says on every way out of a statement. -/
theorem evalAll_iff (options : EngineOptions) (sources : List String) (as : List Answer) (r : Realm) :
    (∃ fuel e, Engine.evalAll fuel sources (.start options) = some (as, e) ∧ e.outline = r) ↔
      ∃ n W, World.evalAll options n sources (.start options) = some (as, W) ∧ W.realm = r := by
  constructor
  · rintro ⟨fuel, e, he, rfl⟩
    obtain ⟨W, hW, hr⟩ := evalAll_evaluates (rel_start (M := .full options) rfl) he
    exact ⟨fuel + 2, W, hW, hr.realm⟩
  · rintro ⟨n, W, hW, rfl⟩
    obtain ⟨fuel, e, he, hr⟩ := evalAll_runs (rel_start (M := .full options) rfl) hW
    exact ⟨fuel, e, he, hr.realm.symm⟩

/-! ## Sessions -/

/-- Scripts have run on an engine, one after another; the text that they printed may have been
taken out in between. -/
inductive Session (options : EngineOptions) : Engine → Prop
  | start : Session options (.start options)
  | eval {e : Engine} {fuel : Nat} {source : String} {a : Answer} {e' : Engine} : Session options e →
      e.eval fuel source = some (a, e') → Session options e'
  | takeOutput {e : Engine} : Session options e → Session options e.takeOutput.2

theorem Rel.takeOutput {M : Mode} {r : Realm} {W : World} (h : Rel M r W) :
    Rel M r.takeOutput.2 { W with realm := { W.realm with output := "" } } := by
  refine ⟨?_, h.options, h.closures⟩
  simp only [h.realm, Mode.view]
  split <;> rfl

theorem Session.rel (h : Session options e) : ∃ W, Rel (.full options) e W := by
  induction h with
  | start => exact ⟨_, rel_start (M := .full options) rfl⟩
  | eval _ he ih =>
    obtain ⟨W, hr⟩ := ih
    obtain ⟨⟨W', -, hr'⟩, -⟩ := eval_evaluates hr he
    exact ⟨W', hr'⟩
  | takeOutput _ ih =>
    obtain ⟨W, hr⟩ := ih
    exact ⟨_, hr.takeOutput⟩

/-- The machine after so many steps of a script that is still running then. -/
def Engine.stateAfter (n : Nat) (source : String) (e : Engine) : Option Machine :=
  match compileSource e.options.lowering source with
  | .error _ => none
  | .ok code =>
    match (Step.run (.script code e)).after n with
    | .run m => some m
    | .done _ => none

/-- The run of a script on an engine comes through a state of the machine. -/
def Engine.Passes (e : Engine) (source : String) (m : Machine) : Prop := ∃ n, e.stateAfter n source = some m

theorem Engine.Passes.script (h : e.Passes source m) :
    ∃ code, compileSource e.options.lowering source = .ok code ∧ (Machine.script code e).Passes m := by
  obtain ⟨n, h⟩ := h
  rw [Engine.stateAfter] at h
  cases hc : compileSource e.options.lowering source with
  | error f => rw [hc] at h; cases h
  | ok code =>
    rw [hc] at h
    cases hs : (Step.run (.script code e)).after n with
    | done o => simp only [hs] at h; cases h
    | run m' =>
      simp only [hs, Option.some.injEq] at h
      exact ⟨code, rfl, n, h ▸ hs⟩

theorem Engine.passes_script {code : CodeUnit} (hc : compileSource e.options.lowering source = .ok code)
    (h : (Machine.script code e).Passes m) :
    e.Passes source m := by
  obtain ⟨n, hn⟩ := h
  exact ⟨n, by simp only [Engine.stateAfter, hc, hn]⟩

theorem Session.sound (h : Session options e) (hm : e.Passes source m) : m.Sound := by
  obtain ⟨W, hr⟩ := h.rel
  obtain ⟨code, hcode, hm⟩ := hm.script
  have ho : e.options = options := hr.options
  rw [ho] at hcode
  obtain ⟨f, hc, -⟩ | ⟨p, code', hc, -, hp⟩ := script_cases options.lowering source
  · rw [hc] at hcode
    cases hcode
  · rw [hc] at hcode
    cases hcode
    exact Sim.sound (script_sim rfl (Mode.full_fits options) hr hp) (Mode.full_clean _) hm

/-- **Scripts never bring the machine to a state that it was not made for.** Whatever ran before
on the engine: in each state that the run of a script comes through there is a next instruction,
and it raises no internal error; and no answer of the engine is an internal error. -/
theorem session_safe {options : EngineOptions} {e : Engine} (h : Session options e) (source : String) :
    (∀ m, e.Passes source m → (∃ i, m.next? = some i) ∧ ∀ cause, ¬ m.Raises (.fault (.internal cause))) ∧
      ∀ fuel a e', e.eval fuel source = some (a, e') → ∀ message, a ≠ .error (.report .internalError message) := by
  obtain ⟨W, hr⟩ := h.rel
  exact ⟨fun m hm => ⟨(h.sound hm).next, fun cause hraise => (h.sound hm).visible _ hraise rfl⟩,
    fun fuel a e' he => (eval_evaluates hr he).2⟩

/-- A script that throws through two finalizers, on an engine where another one has run. -/
theorem session_safe_thrown :
    ∃ e, Session .standard e ∧ ∀ fuel a e', e.eval fuel
      "function f(x) \x7b try \x7b try \x7b throw x; \x7d finally \x7b y = x; \x7d \x7d finally \x7b eval('z = y'); \x7d \x7d f(y + 1);" =
        some (a, e') → ∀ message, a ≠ .error (.report .internalError message) := by
  have hok : (Engine.eval 100 "var y = 1; y;" (.start .standard)).isSome = true := by decide +kernel
  obtain ⟨⟨a, e⟩, he⟩ := Option.isSome_iff_exists.1 hok
  have hs : Session .standard e := .eval .start he
  exact ⟨e, hs, (session_safe hs _).2⟩

/-- **Slots are those of the variables that they were chosen for.** When an instruction on a slot
comes next, in any run of a script, the record that it names by its depth is the one in which a
search for the variable's name along the chain ends, it is declarative, and it has the variable at
the index; so reading and writing by name reads and writes the slot. -/
theorem session_slots {options : EngineOptions} {e : Engine} (h : Session options e) {source : String} {m : Machine}
    (hm : e.Passes source m) {op : Opcode} {depth index : Nat} (hop : op = .loadSlot ∨ op = .storeSlot)
    (hn : m.next? = some ⟨op, some (.slot depth index)⟩) :
    ∃ name record names slots, m.frame.code.slotNames[m.frame.position]? = some name ∧
      m.frame.scope[depth]? = some record ∧ m.realm.store.find name m.frame.scope = some (m.frame.scope.drop depth) ∧
      m.realm.store.record record = .declarative names slots ∧ names.findIdx? (· == name) = some index ∧
      index < slots.size ∧
      m.realm.store.lookup m.frame.scope name = slots[index]?.map (fun v => (v, .undefined)) ∧
      ∀ v, m.realm.store.assign m.frame.scope name v = m.realm.store.setSlot record index v := by
  obtain ⟨name, record, hname, hs⟩ := (h.sound hm).slots op depth index hop hn
  obtain ⟨names, slots, hr, hi, hsize⟩ := hs.declarative
  have hlt : index < slots.size := hsize ▸ (Array.findIdx?_eq_some_iff_findIdx_eq.1 hi).1
  refine ⟨name, record, names, slots, hname, hs.at_depth, hs.found, hr, hi, hlt, ?_, hs.assign⟩
  rw [hs.lookup, Store.slot?, hr]

/-- A variable of a function, read by a function inside a catch clause. -/
theorem session_slots_closure :
    ∃ m, Engine.Passes (.start .standard)
        "(function (a) { try { throw 1; } catch (e) { return (function () { return a + e; })(); } })(2);" m ∧
      m.next? = some ⟨.loadSlot, some (.slot 2 0)⟩ ∧
      ∃ name record names slots, m.frame.code.slotNames[m.frame.position]? = some name ∧
        m.frame.scope[2]? = some record ∧ m.realm.store.find name m.frame.scope = some (m.frame.scope.drop 2) ∧
        m.realm.store.record record = .declarative names slots ∧ names.findIdx? (· == name) = some 0 := by
  have hnext : (Engine.stateAfter 11
      "(function (a) { try { throw 1; } catch (e) { return (function () { return a + e; })(); } })(2);"
      (.start .standard)).bind Machine.next? = some ⟨.loadSlot, some (.slot 2 0)⟩ := by decide +kernel
  obtain ⟨m, hm, hnext⟩ := Option.bind_eq_some_iff.1 hnext
  obtain ⟨name, record, names, slots, hname, hrecord, hfind, hslots, hindex, -⟩ :=
    session_slots .start ⟨11, hm⟩ (.inl rfl) hnext
  exact ⟨m, ⟨11, hm⟩, hnext, name, record, names, slots, hname, hrecord, hfind, hslots, hindex⟩

end ScriptEngine
