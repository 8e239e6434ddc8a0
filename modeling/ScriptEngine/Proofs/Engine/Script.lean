/-
Scripts as a whole. A script that is run on an engine follows the evaluation of
its tree from the first step to the last. Main statement: `script_sim`; what it
says about runs that end, and about the states that runs come through, is in
`Sim.ended` and `Sim.sound`.
-/
import ScriptEngine.Proofs.Simulation.Unit

namespace ScriptEngine

open Meaning

/-- The machine that is about to run a script on an engine. -/
def Machine.script (code : CodeUnit) (e : Engine) : Machine :=
  ⟨{ e with store := e.store.declareAll e.global code.bindings false }, .start code [e.global] .undefined .program, []⟩

theorem Realm.runScript_eq (fuel : Nat) (code : CodeUnit) (e : Engine) :
    e.runScript fuel code = Machine.run fuel (.script code e) := rfl

def EndsWith (M : Mode) (v : Value) (W : World) (s : Step) : Prop := ∃ r, s = .done ⟨.ok v, r⟩ ∧ Rel M r W

/-- The run of a script ended because of something that was raised. -/
def FailsWith (M : Mode) (e : Raised) (W : World) (s : Step) : Prop :=
  ∃ r, s = .done ⟨.error e, r⟩ ∧ Rel M r W ∧ e.Visible

theorem tame_declareScript (global : RecordRef) (names : Array String) :
    Action.Tame (Realm.modifyStore fun s => s.declareAll global names false) :=
  .modifyStore (fun s => Store.declareAll_outline s global names false)
    fun s => Store.keeps_declareAll s global names false

section

variable {M : Mode}

/-- **The run of a script follows the evaluation of the script's tree.** -/
theorem script_sim (hl : M.linked = true) (hM : M.Fits) {e : Engine} {W : World} (hr : Rel M e W) {p : Program}
    {code : CodeUnit} (hc : compile M.options.lowering p = .ok code) (n : Nat) :
    Sim M (n - 1) (Meaning.runScript M.check n p) W (.run (.script code e)) (EndsWith M) (FailsWith M) := by
  have hc : Lowering.lowerProgram M.options.lowering .global .global false p = .ok code := hc
  obtain ⟨hb, hs, -, q, -, hq⟩ := Lowering.lowerProgram_ok (by decide) rfl hc
  rw [Bool.false_or] at hs hq
  obtain ⟨W₁, hW₁, h₁⟩ := perform_ok hr (tame_declareScript e.global code.bindings) rfl
  have henter : Enters M (e.store.declareAll e.global code.bindings false)
      (programBody p M.options.lowering.isStrict) code [e.global] := ⟨hs, nofun, [], q, trivial, hq⟩
  have hglobal : W.realm.global = e.global := by rw [hr.realm, Mode.view_global]
  have hstrict : W.realm.options.lowering.isStrict = M.options.lowering.isStrict := by
    rw [hr.realm, Mode.view_isStrict, hr.options]
  have hget : (get : Eval World) W = some (.ok W, W) := rfl
  have hW : Meaning.runScript M.check n p W =
      (host M.check n).run (programBody p M.options.lowering.isStrict) [e.global] .undefined W₁ := by
    rw [Meaning.runScript, bind_apply, hget]
    dsimp only
    rw [bind_apply, hglobal, ← hb, hW₁, hstrict]
    rfl
  refine (((hostSim hl hM n).run _ code [e.global] .undefined .program [] _ W₁ henter h₁.rel).mono
    ?_ ?_).of_eq hW
  · rintro v W' s ⟨r', rfl, hr'⟩
    exact ⟨r', rfl, hr'.rel⟩
  · rintro err W' s ⟨r', g, rfl, hg, hgp, hr', herr⟩
    refine ⟨r', ?_, hr'.rel, herr⟩
    rw [Machine.unwind, Machine.receive, hg, hgp]
    rfl

end

/-! ## Runs that end -/

section

variable {M : Mode} {x : Nat → Eval Value} {W : World} {m : Machine}

/-- When the machine never comes to a fault that the comparison leaves out. -/
def Mode.Clean (M : Mode) (m : Machine) : Prop := ∀ m', m.Passes m' → ¬ M.Odd (.run m')

theorem Mode.Clean.not_odd (h : M.Clean m) {k : Nat} {s : Step} (hr : Reaches k (.run m) s) : ¬ M.Odd s := by
  rintro ⟨m', f, rfl, hf⟩
  exact h m' ⟨k, hr.after⟩ ⟨m', f, rfl, hf⟩

theorem Sim.sound (h : ∀ n, Sim M (n - 1) (x n) W (.run m) (EndsWith M) (FailsWith M)) (hm : M.Clean m) {m' : Machine}
    (hp : m.Passes m') : m'.Sound := by
  obtain ⟨j, hj⟩ := hp
  obtain ⟨k, s, hr, hodd | hs⟩ := h (j + 2)
  · exact (hm.not_odd hr hodd).elim
  · by_cases hjk : j < k
    · exact hr.sound hjk hj
    · have hover : ∀ o, s ≠ .done o := by
        rintro o rfl
        rw [Step.after_of_le hr.after (Nat.le_of_not_lt hjk)] at hj
        cases hj
      match hx : x (j + 2) W with
      | none => rw [hx] at hs; exact (hjk hs).elim
      | some (.ok v, W') =>
        rw [hx] at hs
        obtain ⟨r, hd, -⟩ := hs
        exact (hover _ hd).elim
      | some (.error e, W') =>
        rw [hx] at hs
        obtain ⟨r, hd, -⟩ := hs
        exact (hover _ hd).elim

theorem Sim.evaluates {n fuel : Nat} {y : Eval Value} (h : Sim M n y W (.run m) (EndsWith M) (FailsWith M))
    (hm : M.Clean m) {o : Outcome} (ho : m.run fuel = some o) (hn : fuel < n) :
    ∃ W', y W = some (o.result, W') ∧ Rel M o.realm W' ∧ ∀ e, o.result = .error e → e.Visible := by
  have ho := Machine.run_eq_some.1 ho
  obtain ⟨k, s, hr, hodd | hs⟩ := h
  · exact (hm.not_odd hr hodd).elim
  · match hy : y W with
    | none =>
      rw [hy] at hs
      obtain ⟨m', hm'⟩ := hr.running (Nat.lt_of_lt_of_le hn hs)
      rw [ho] at hm'
      cases hm'
    | some (.ok v, W') =>
      rw [hy] at hs
      obtain ⟨r, rfl, hrel⟩ := hs
      cases Step.after_unique hr.after ho
      exact ⟨W', rfl, hrel, fun e he => by cases he⟩
    | some (.error e, W') =>
      rw [hy] at hs
      obtain ⟨r, rfl, hrel, he⟩ := hs
      cases Step.after_unique hr.after ho
      exact ⟨W', rfl, hrel, fun e' he' => by cases he'; exact he⟩

theorem Sim.runs {n : Nat} {y : Eval Value} (h : Sim M n y W (.run m) (EndsWith M) (FailsWith M)) (hm : M.Clean m)
    {result : Except Raised Value} {W' : World} (hy : y W = some (result, W')) :
    ∃ fuel r, m.run fuel = some ⟨result, r⟩ ∧ Rel M r W' := by
  obtain ⟨k, s, hr, hodd | hs⟩ := h
  · exact (hm.not_odd hr hodd).elim
  · rw [hy] at hs
    cases result with
    | ok v =>
      obtain ⟨r, rfl, hrel⟩ := hs
      exact ⟨k, r, Machine.run_eq_some.2 hr.after, hrel⟩
    | error e =>
      obtain ⟨r, rfl, hrel, -⟩ := hs
      exact ⟨k, r, Machine.run_eq_some.2 hr.after, hrel⟩

end

end ScriptEngine
