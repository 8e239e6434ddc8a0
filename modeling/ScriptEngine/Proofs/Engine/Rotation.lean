/-
Loops may be laid out with or without a copy of their first round. Main statement:
`eval_rotation`, a script does the same either way, as long as no program given
to `eval` needs more room than a unit has.
-/
import ScriptEngine.Proofs.Engine.Session
import ScriptEngine.Proofs.Lowering.Verdict

namespace ScriptEngine

open Meaning

def EngineOptions.rotating (options : EngineOptions) (rotation : Bool) : EngineOptions :=
  { options with lowering := { options.lowering with loopRotation := rotation } }

/-- The next instruction fails because a pool of a unit that is lowered then is full. -/
def Machine.overflows (m : Machine) : Bool :=
  match m.next? with
  | none => false
  | some i =>
    match i.exec m.activity with
    | .error (.fault f) _ => f.isFull
    | _ => false

theorem Machine.overflows_eq {m : Machine} {f : Fault} (h : m.Raises (.fault f)) : m.overflows = f.isFull := by
  obtain ⟨i, a, hi, ha⟩ := h
  simp only [overflows, hi, ha]

/-! ## The comparison -/

/-- The comparison in which evaluation finds the early faults of programs, whatever the layout, and
full pools are left out. -/
def Mode.early (options : EngineOptions) : Mode :=
  ⟨options, fun _ p => p.early .eval, fun f => f.isFull = true, true⟩

theorem Mode.early_fits (options : EngineOptions) : (Mode.early options).Fits := by
  intro source strict p hp
  have hguarded := Program.parse_guarded hp
  cases hc : compileEval (Mode.early options).options.lowering strict p with
  | ok code => exact early_of_ok hguarded hc
  | error f =>
    exact (early_of_error hguarded hc).imp id fun h => ⟨h, (Lowering.lowerProgram_ofProgram hguarded hc).visible⟩

theorem Mode.early_clean (options : EngineOptions) {m : Machine} (h : ∀ m', m.Passes m' → m'.overflows = false) :
    (Mode.early options).Clean m := by
  rintro m' hm' ⟨m₁, f, hrun, hf, hraise⟩
  cases hrun
  have hfull : f.isFull = true := hf
  rw [← Machine.overflows_eq hraise, h m' hm'] at hfull
  cases hfull

/-- **How loops are laid out makes no difference to a script.** If the script can be lowered both
ways, and no program given to `eval` on the way needs more room than a unit has, then what one
layout answers the other answers too, after some number of steps of its own, with the same output,
the same global variables, and the same objects and functions up to the functions' code. -/
theorem eval_rotation (options : EngineOptions) (source : String)
    (hc : ∀ rotation, ∃ code, compileSource (options.rotating rotation).lowering source = .ok code)
    (hf : ∀ rotation m, Engine.Passes (.start (options.rotating rotation)) source m → m.overflows = false)
    (rotation : Bool) {fuel : Nat} {a : Answer} {e : Engine}
    (h : Engine.eval fuel source (.start (options.rotating rotation)) = some (a, e)) :
    ∃ fuel' e', Engine.eval fuel' source (.start (options.rotating !rotation)) = some (a, e') ∧
      e'.output = e.output ∧ e'.global = e.global ∧
      (∀ name, e'.store.lookup [e'.global] name = e.store.lookup [e.global] name) ∧ e'.outline = e.outline := by
  obtain ⟨code, hcode⟩ := hc rotation
  obtain ⟨code', hcode'⟩ := hc !rotation
  obtain ⟨p, hp, hlow⟩ := compileSource_eq_ok hcode
  obtain ⟨p', hp', hlow'⟩ := compileSource_eq_ok hcode'
  cases hp.symm.trans hp'
  have hclean := Mode.early_clean (options.rotating rotation) fun m hm => hf rotation m (Engine.passes_script hcode hm)
  have hclean' := Mode.early_clean (options.rotating !rotation) fun m hm => hf (!rotation) m (Engine.passes_script hcode' hm)
  -- The run of the first layout is an evaluation of the tree, and that is a run of the second.
  have ho : (Realm.start (options.rotating rotation)).options = options.rotating rotation := rfl
  simp only [Engine.eval, ho, hcode, Realm.runScript_eq, Option.map_eq_some_iff] at h
  obtain ⟨o, hrun, ha⟩ := h
  have hsim := script_sim rfl (Mode.early_fits _) (rel_start (M := .early (options.rotating rotation)) rfl) hlow (fuel + 2)
  obtain ⟨W, hW, hr, -⟩ := hsim.evaluates hclean hrun (Nat.lt_succ_self fuel)
  have hsim' := script_sim rfl (Mode.early_fits _) (rel_start (M := .early (options.rotating !rotation)) rfl) hlow' (fuel + 2)
  obtain ⟨fuel', r, hrun', hr'⟩ := hsim'.runs hclean' hW
  rw [answer_eq rfl hr] at ha
  cases ha
  have heq : r.outline = o.realm.outline := hr'.realm.symm.trans hr.realm
  have ho' : (Realm.start (options.rotating !rotation)).options = options.rotating !rotation := rfl
  have hanswer := answer_eq rfl (o := ⟨o.result, r⟩) hr'
  have hglobal : r.outline.global = o.realm.outline.global := by rw [heq]
  have hlookup : r.store.lookup = o.realm.store.lookup := by
    rw [← Store.lookup_outline r.store, ← Store.lookup_outline o.realm.store]
    exact congrArg (Store.lookup ·.store) heq
  have houtput : r.outline.output = o.realm.outline.output := by rw [heq]
  refine ⟨fuel', r, ?_, houtput, hglobal, fun name => by rw [hlookup, show r.global = _ from hglobal]; rfl, heq⟩
  have hrun' : (Machine.script code' (.start (options.rotating !rotation))).run fuel' = some ⟨o.result, r⟩ := hrun'
  simp only [Engine.eval, ho', hcode', Realm.runScript_eq, hrun', Option.map_some, hanswer]

/-- Goes through the states of a run that is over after so many steps. -/
def Step.staysWithin : Nat → Step → Bool
  | _, .done _ => true
  | 0, .run _ => false
  | n + 1, .run m => !m.overflows && Step.staysWithin n m.step

theorem Step.staysWithin_after : ∀ {n k : Nat} {s : Step} {m : Machine}, s.staysWithin n = true → s.after k = .run m →
    m.overflows = false
  | _, _, .done o, m, _, hm => by
    rw [Step.after_done] at hm
    cases hm
  | 0, _, .run _, _, h, _ => by cases h
  | n + 1, k, .run m₀, m, h, hm => by
    rw [staysWithin, Bool.and_eq_true, Bool.not_eq_true'] at h
    cases k with
    | zero =>
      cases hm
      exact h.1
    | succ k => exact staysWithin_after h.2 hm

theorem Step.staysWithin_done : ∀ {n : Nat} {s : Step}, s.staysWithin n = true → ∃ o, s.after n = .done o
  | n, .done o, _ => ⟨o, after_done o n⟩
  | 0, .run _, h => by cases h
  | n + 1, .run m, h => by
    rw [staysWithin, Bool.and_eq_true] at h
    rw [after_run]
    exact staysWithin_done h.2

/-- The script is lowered, and its run is over after so many steps without a full pool. -/
def Engine.staysWithin (n : Nat) (source : String) (e : Engine) : Bool :=
  match compileSource e.options.lowering source with
  | .error _ => false
  | .ok code => (Step.run (.script code e)).staysWithin n

theorem Engine.staysWithin_ok {n : Nat} {source : String} {e : Engine} (h : e.staysWithin n source = true) :
    (∃ code, compileSource e.options.lowering source = .ok code) ∧ (∀ m, e.Passes source m → m.overflows = false) ∧
      ∃ a e', e.eval n source = some (a, e') := by
  rw [staysWithin] at h
  cases hc : compileSource e.options.lowering source with
  | error f => rw [hc] at h; cases h
  | ok code =>
    rw [hc] at h
    obtain ⟨o, ho⟩ := Step.staysWithin_done h
    refine ⟨⟨code, rfl⟩, fun m hm => ?_, (Engine.answer o).1, (Engine.answer o).2, ?_⟩
    · obtain ⟨code', hcode', k, hk⟩ := hm.script
      cases hc.symm.trans hcode'
      exact Step.staysWithin_after h hk
    · simp only [Engine.eval, hc, Realm.runScript_eq, Machine.run_eq_some.2 ho, Option.map_some]

/-- Nested loops; the inner one is left by a `continue` of the outer one, through a finalizer. -/
theorem eval_rotation_labelled :
    ∃ fuel fuel' a e e',
      Engine.eval fuel "o: for (i = 0; i < 2; i++) do try \x7b continue o \x7d finally \x7b print(i) \x7d while (1)"
        (.start (EngineOptions.standard.rotating true)) = some (a, e) ∧
      Engine.eval fuel' "o: for (i = 0; i < 2; i++) do try \x7b continue o \x7d finally \x7b print(i) \x7d while (1)"
        (.start (EngineOptions.standard.rotating false)) = some (a, e') ∧
      e'.output = e.output ∧ e'.outline = e.outline := by
  have hs : ∀ rotation, Engine.staysWithin 100
      "o: for (i = 0; i < 2; i++) do try \x7b continue o \x7d finally \x7b print(i) \x7d while (1)"
      (.start (EngineOptions.standard.rotating rotation)) = true := by
    decide +kernel
  obtain ⟨a, e, he⟩ := (Engine.staysWithin_ok (hs true)).2.2
  obtain ⟨fuel', e', he', houtput, -, -, heq⟩ := eval_rotation .standard _
    (fun rotation => (Engine.staysWithin_ok (hs rotation)).1) (fun rotation => (Engine.staysWithin_ok (hs rotation)).2.1)
    true he
  exact ⟨100, fuel', a, e, e', he, he', houtput, heq⟩

end ScriptEngine
