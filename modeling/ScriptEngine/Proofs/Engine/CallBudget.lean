/-
The call budget. Whatever a realm is asked to run and however that ends, it counts
the calls that it counted before, and never more than the options allow in
between. So a script that fails costs later ones nothing. Main statement:
`call_budget_restored`.
-/
import ScriptEngine.Proofs.Engine.Depth

namespace ScriptEngine

inductive Request
  | call (callee receiver : Value) (args : List Value)
  | construct (target : Value) (args : List Value)
  | script (code : CodeUnit)
  | eval (code : CodeUnit) (scope : Chain) (receiver : Value)
  | evalGlobal (source : String)

def Begun.frames : Begun → List Frame
  | .value _ => []
  | .frame f => [f]

namespace Request

variable {q : Request} {r : Realm}

def run (fuel : Nat) (r : Realm) : Request → Option Outcome
  | call callee receiver args => r.runCall fuel callee receiver args
  | construct target args => r.runConstruct fuel target args
  | script code => r.runScript fuel code
  | eval code scope receiver => r.runEval fuel code scope receiver
  | evalGlobal source => r.runEvalGlobal fuel source

def begin (r : Realm) : Request → EStateM.Result Raised Realm Begun
  | call callee receiver args => Realm.call callee receiver args (r.store.text callee) r
  | construct target args => Realm.construct target args r
  | script code => (Begun.frame <$> Realm.beginScript code) r
  | eval code scope receiver => (Begun.frame <$> Realm.beginEval code scope receiver) r
  | evalGlobal source => (Begun.frame <$> Realm.evalGlobal source) r

def Passes (q : Request) (r : Realm) (m : Machine) : Prop :=
  ∃ f r', q.begin r = .ok (.frame f) r' ∧ (⟨r', f, []⟩ : Machine).Passes m

theorem run_eq (q : Request) (fuel : Nat) (r : Realm) : q.run fuel r =
    match q.begin r with
    | .ok (.value v) r => some ⟨.ok v, r⟩
    | .ok (.frame f) r => Machine.run fuel ⟨r, f, []⟩
    | .error e r => some ⟨.error e, r⟩ := by
  cases q <;> rfl

/-- The calls in progress are counted on top of those of the realm. -/
abbrev Counts (r : Realm) : EStateM.Result Raised Realm Begun → Prop :=
  Conducted (fun r r' => Spends r.depth r.options r' []) (fun r b r' => Spends r.depth r.options r' b.frames) r

theorem counts_of_calls (hr : r.depth ≤ r.options.maxCallDepth) {x : EStateM.Result Raised Realm Begun}
    (hx : Conducted Realm.Rests Realm.Calls r x) : Counts r x := by
  have hstart : Spends r.depth r.options r [] := ⟨(Nat.zero_add _).symm, hr, rfl⟩
  cases x with
  | error e r' => exact hstart.goesOn hx
  | ok b r' =>
    cases b with
    | value v => exact hstart.goesOn hx
    | frame f => exact hstart.begins hx

theorem counts_begin (q : Request) (hr : r.depth ≤ r.options.maxCallDepth) : Counts r (q.begin r) := by
  cases q with
  | call callee receiver args => exact counts_of_calls hr (Action.calls_call ..)
  | construct target args => exact counts_of_calls hr (Action.calls_construct ..)
  | script code => exact ⟨(Nat.zero_add _).symm, hr, rfl⟩
  | eval code scope receiver => exact ⟨(Nat.zero_add _).symm, hr, rfl⟩
  | evalGlobal source => exact counts_of_calls hr (Action.calls_frame (Action.starts_evalGlobal source r))

theorem spends_passes (hr : r.depth ≤ r.options.maxCallDepth) {m : Machine} (hm : q.Passes r m) :
    Spends r.depth r.options m.realm m.frames := by
  obtain ⟨f, r', hbegin, n, hn⟩ := hm
  have hf := q.counts_begin hr
  rw [hbegin] at hf
  have hm := (Spends.kept _ _).after (s := .run ⟨r', f, []⟩) hf n
  rwa [hn] at hm

theorem spends_run (hr : r.depth ≤ r.options.maxCallDepth) {fuel : Nat} {o : Outcome} (ho : q.run fuel r = some o) :
    Spends r.depth r.options o.realm [] := by
  have hbegin := q.counts_begin hr
  rw [run_eq] at ho
  cases hb : q.begin r with
  | error e r' =>
    rw [hb] at hbegin ho
    cases ho
    exact hbegin
  | ok b r' =>
    rw [hb] at hbegin ho
    cases b with
    | value v =>
      cases ho
      exact hbegin
    | frame f =>
      have hdone := (Spends.kept _ _).after (s := .run ⟨r', f, []⟩) hbegin fuel
      rwa [Machine.run_eq_some.1 ho] at hdone

end Request

/-- **The calls in progress are given back.** A realm within its limit counts as many calls after
anything that it runs as before, whatever came of it. On the way it counts those that began since,
within the limit. So after a script that failed no call counts, and the next script can
begin as many as the options allow. -/
theorem call_budget_restored :
    (∀ (q : Request) (r : Realm), r.depth ≤ r.options.maxCallDepth →
      (∀ fuel o, q.run fuel r = some o → o.realm.depth = r.depth) ∧
        ∀ m, q.Passes r m → m.realm.depth = m.frames.countP Frame.isCall + r.depth ∧
          m.realm.depth ≤ r.options.maxCallDepth) ∧
      ∀ options e fuel source failure e', Session options e → e.eval fuel source = some (.error failure, e') →
        e'.depth = 0 ∧ ∀ source' m, e'.Passes source' m → m.realm.depth = m.frames.countP Frame.isCall ∧
          (m.Applies → m.realm.depth < options.maxCallDepth → ∃ m' f, m.step = .run m' ∧ m'.callers = f :: m.callers ∧
            m'.frame.isCall = true ∧ m'.realm.depth = m.realm.depth + 1) := by
  refine ⟨fun q r hr => ⟨fun fuel o ho => ?_, fun m hm => ?_⟩, ?_⟩
  · exact (Request.spends_run hr ho).depth.trans (Nat.zero_add _)
  · have hspends := Request.spends_passes hr hm
    exact ⟨hspends.depth, hspends.le⟩
  · intro options e fuel source failure e' hs he
    have hs' : Session options e' := .eval hs he
    refine ⟨((Counted.lasting options).session (.start options) hs').depth, fun source' m hm => ?_⟩
    have hcounted := hs'.counted hm
    refine ⟨hcounted.depth, fun happlies hlt => happlies.begins ?_ (hs'.sound hm).visible⟩
    rwa [hcounted.options]

/-- Two calls are allowed and the third fails; afterwards there can be two again. -/
theorem call_budget_restored_overflow :
    ∃ o failure e' m m',
      Request.run 40 (.start ⟨.standard, 2⟩) (.evalGlobal "function f() \x7b f(); \x7d f();") = some o ∧ o.realm.depth = 0 ∧
        Engine.eval 40 "function f() \x7b f(); \x7d f();" (.start ⟨.standard, 2⟩) = some (.error failure, e') ∧ e'.depth = 0 ∧
        e'.Passes "f();" m ∧ m.realm.depth = 1 ∧ m.step = .run m' ∧ m'.frame.isCall = true ∧ m'.realm.depth = 2 := by
  have hrun : (Request.run 40 (.start ⟨.standard, 2⟩) (.evalGlobal "function f() \x7b f(); \x7d f();")).isSome = true := by
    decide +kernel
  have heval : (Engine.eval 40 "function f() \x7b f(); \x7d f();" (.start ⟨.standard, 2⟩)).map (fun p =>
      (p.1.toOption.isNone, (p.2.stateAfter 3 "f();").map fun m => (m.offersClosure, m.next?, m.realm.depth))) =
      some (true, some (true, some ⟨.call, some (.call 0 0)⟩, 1)) := by decide +kernel
  obtain ⟨o, ho⟩ := Option.isSome_iff_exists.1 hrun
  obtain ⟨⟨answer, e'⟩, he, hstate⟩ := Option.map_eq_some_iff.1 heval
  obtain ⟨hanswer, hstate⟩ := Prod.mk.inj hstate
  obtain ⟨m, hm, hstate⟩ := Option.map_eq_some_iff.1 hstate
  obtain ⟨hoffers, hnext, hdepth⟩ := by simpa only [Prod.mk.injEq] using hstate
  cases answer with
  | ok v => cases hanswer
  | error failure =>
    obtain ⟨hzero, hpasses⟩ := call_budget_restored.2 _ _ _ _ failure e' .start he
    obtain ⟨m', f, hstep, -, hcall, hdepth'⟩ :=
      (hpasses _ m ⟨3, hm⟩).2 (m.applies_of_offersClosure hoffers hnext) (hdepth ▸ Nat.lt_succ_self 1)
    exact ⟨o, failure, e', m, m', ho, (call_budget_restored.1 _ _ (Nat.zero_le _)).1 40 o ho, he, hzero, ⟨3, hm⟩, hdepth,
      hstep, hcall, hdepth'.trans (congrArg Nat.succ hdepth)⟩

end ScriptEngine
