/-
The code of one statement on its own. A frame stands in front of code that the
lowering of a statement made, wherever that was, in a realm that agrees with a
world; from there the machine follows the evaluation of the statement. Main
definition: `Standing`; main statement: `Standing.follows`.
-/
import ScriptEngine.Proofs.Engine.Session

namespace ScriptEngine

open Meaning

structure Standing (options : EngineOptions) (kind : StmtKind) (labels : List String) where
  context : Lowering.Context
  /-- How deep functions may nest in the statement. -/
  depth : Nat
  before : Lowering.State
  after : Lowering.State
  lowered : Lowering.lowerKind (Lowering.lowerFunction options.lowering depth) kind labels context before = .ok ((), after)
  ok : before.builder.Ok
  /-- The builder at the end of the unit, and what surrounds the code there. -/
  whole : Builder
  setting : Layout.Setting
  rest : Builder.EndsIn before.builder.Open after.builder whole
  fits : Lowering.Fits whole before.scopes context setting
  options_eq : context.options = options.lowering
  strict : setting.unit.strict = context.strict
  frame : Frame
  callers : List Frame
  realm : Realm
  world : World
  code : frame.code = setting.unit
  position : frame.position = before.builder.size
  scope : frame.scope ≠ []
  found : Env.Matches realm.store setting.env frame.scope
  completion : ∀ t, context.completion = some t → t < before.builder.temporaries ∧ frame.temporary t = world.value
  rel : Rel (.full options) realm world

/-- What the end of a statement is for a machine that has made `k` steps: it is behind the
statement, on the way out of the constructs around it, or where something is raised. Without an end
the machine is still running after `n` steps. -/
def Ended (options : EngineOptions) (n : Nat) (K : Stage) (c : Layout.Setting) (b : Nat)
    (o : Option (Completion × World)) (k : Nat) (s : Step) : Prop :=
  match o with
  | none => n ≤ k
  | some (.ok exit, W) => Ends (.full options) K c b exit W s
  | some (.error e, W) => Fails (.full options) K e W s

theorem Ended.le {options : EngineOptions} {n : Nat} {K : Stage} {c : Layout.Setting} {b : Nat}
    {o : Option (Completion × World)} {k j : Nat} {s : Step} (h : Ended options n K c b o k s) (hkj : k ≤ j) :
    Ended options n K c b o j s := by
  rcases o with _ | ⟨_ | _, _⟩
  · exact Nat.le_trans h hkj
  · exact h
  · exact h

theorem Sim.full_cases {options : EngineOptions} {n : Nat} {x : Eval α} {W : World} {s : Step}
    {Q : α → World → Step → Prop} {E : Raised → World → Step → Prop} (hx : Sim (.full options) n x W s Q E) :
    ∃ k s', Reaches k s s' ∧ (x W = none ∧ n ≤ k ∨ (∃ e W', x W = some (.error e, W') ∧ E e W' s') ∨
      ∃ a W', x W = some (.ok a, W') ∧ Q a W' s') := by
  obtain ⟨k, s', hr, ⟨_, _, _, hodd, _⟩ | hs⟩ := hx
  · exact hodd.elim
  · refine ⟨k, s', hr, ?_⟩
    rcases hx : x W with _ | ⟨e | a, W'⟩ <;> rw [hx] at hs
    · exact .inl ⟨rfl, hs⟩
    · exact .inr (.inl ⟨e, W', rfl, hs⟩)
    · exact .inr (.inr ⟨a, W', rfl, hs⟩)

namespace Standing

variable {options : EngineOptions} {kind : StmtKind} {labels : List String}

def stage (S : Standing options kind labels) : Stage :=
  ⟨S.callers, S.frame, S.realm.store, S.before.builder.temporaries, S.context.completion⟩

/-- The activation that the statement is evaluated in. -/
def activation (S : Standing options kind labels) : Activation :=
  ⟨S.frame.scope, S.frame.receiver, S.context.strict, S.context.completion.isSome⟩

def machine (S : Standing options kind labels) : Machine := ⟨S.realm, S.frame, S.callers⟩

variable (S : Standing options kind labels)

theorem laid : Layout.kindAt kind labels S.setting (Lowering.here S.before.builder) (Lowering.here S.after.builder) :=
  (Lowering.lays_kind (Lowering.innerLays_lowerFunction options.lowering S.depth) kind labels S.options_eq S.fits
    S.before S.after (.refl _) S.ok (fun _ h => h) S.lowered).code S.rest

theorem suits : Suits (.full options) S.stage S.setting S.activation where
  unit := S.code
  options := S.fits.options.trans S.options_eq
  strict := S.fits.strict.symm
  unit_strict := S.strict.trans S.fits.strict.symm
  completion := S.fits.completion.symm
  keepsValue := by rw [S.fits.completion]; rfl
  scope := rfl
  chain := S.scope
  receiver := rfl
  found := S.found
  taken t ht := (S.completion t (S.fits.completion ▸ ht)).1

theorem stands : At (.full options) S.stage S.before.builder.size [] S.realm S.world S.frame :=
  ⟨⟨S.rel, .refl _, rfl, rfl, rfl, rfl, fun _ _ _ => rfl, fun _ _ => rfl, fun t ht => (S.completion t ht).2⟩,
    S.position, rfl, rfl⟩

/-- The machine goes on to the end that an evaluation describes. -/
def Follows (n : Nat) (o : Option (Completion × World)) : Prop :=
  ∃ k s, Reaches k (.run S.machine) s ∧ Ended options n S.stage S.setting S.after.builder.size o k s

/-- **From the front of a statement the machine follows the evaluation of the statement.** -/
theorem follows (n : Nat) :
    S.Follows n (evalKind (host (evalFault options.lowering) n) kind labels S.activation S.world) := by
  have hdoes := does_kind (Mode.full_fits options) (hostSim rfl (Mode.full_fits options) n) kind labels S.stage
    S.setting S.activation S.suits _ _ [] (Nat.le_refl _) S.laid S.realm S.world S.frame S.stands
  obtain ⟨k, s, hr, ⟨hx, hn⟩ | ⟨e, W, hx, hs⟩ | ⟨exit, W, hx, hs⟩⟩ := hdoes.full_cases
  · exact ⟨k, s, hr, hx ▸ hn⟩
  · exact ⟨k, s, hr, hx ▸ hs⟩
  · exact ⟨k, s, hr, hx ▸ hs⟩

theorem exists_first (options : EngineOptions) (kind : StmtKind) (labels : List String) (depth : Nat)
    (h : ((Lowering.lowerKind (Lowering.lowerFunction options.lowering depth) kind labels
      ⟨options.lowering, .global, ⟨0⟩, false, some 0, []⟩
      ⟨(ScopeArena.empty.push none .global .dynamic).2, { Builder.empty with temporaries := 1 }⟩).bind
        fun p => p.2.builder.finish).isOk = true) :
    ∃ S : Standing options kind labels, S.world = .start options := by
  generalize hctx : (⟨options.lowering, .global, ⟨0⟩, false, some 0, []⟩ : Lowering.Context) = ctx at h
  generalize hst : (⟨(ScopeArena.empty.push none .global .dynamic).2, { Builder.empty with temporaries := 1 }⟩ :
    Lowering.State) = st at h
  cases hl : Lowering.lowerKind (Lowering.lowerFunction options.lowering depth) kind labels ctx st with
  | error => simp [hl, Except.bind, Except.isOk, Except.toBool] at h
  | ok p =>
    obtain ⟨⟨⟩, st'⟩ := p
    rw [hl] at h
    cases hf : st'.builder.finish with
    | error => simp [hf, Except.bind, Except.isOk, Except.toBool] at h
    | ok instructions =>
      let u : CodeUnit := ⟨none, .global, [], .dynamic, #[], instructions, st'.builder.constants, st'.builder.functions,
        st'.builder.temporaries, false, false, st'.builder.slotNames⟩
      have hok : st.builder.Ok := by
        rw [← hst]
        exact Builder.ok_empty 1
      have hsees : st.scopes.Sees ctx.scope [] := by
        rw [← hst, ← hctx]
        exact (ScopeArena.adds_push .empty none .global .dynamic).sees_nil rfl
      have hfits : Lowering.Fits st'.builder st.scopes ctx ⟨u, options.lowering, [], false, some 0, []⟩ := by
        refine ⟨⟨hf, rfl, rfl, rfl⟩, ?_, hsees, ?_, ?_, ?_⟩ <;> rw [← hctx]
        exact .nil
      have hlaid := Lowering.lays_kind (Lowering.innerLays_lowerFunction options.lowering depth) kind labels
        (by rw [← hctx]) hfits (S := st.builder.Open) st st' (.refl _) hok (fun _ h => h) hl
      exact ⟨{
        context := ctx
        depth
        before := st
        after := st'
        lowered := hl
        ok := hok
        whole := st'.builder
        setting := ⟨u, options.lowering, [], false, some 0, []⟩
        rest := ⟨hlaid.ok, .refl _, fun _ _ _ => rfl⟩
        fits := hfits
        options_eq := by rw [← hctx]
        strict := by rw [← hctx]
        frame := .start u [(Realm.start options).global] .undefined .program
        callers := []
        realm := .start options
        world := .start options
        code := rfl
        position := by rw [← hst]; rfl
        scope := nofun
        found := trivial
        completion := fun t ht => by
          rw [← hctx] at ht
          cases ht
          rw [← hst]
          exact ⟨Nat.one_pos, Frame.temporary_start _ _ _ _ _⟩
        rel := rel_start (M := .full options) rfl }, rfl⟩

end Standing

namespace Meaning

/-- An evaluation that gives no value: it raises something or does not end. -/
inductive Aborts (x : Eval α) (W : World) : Option (Completion × World) → Prop
  | raises {e W'} : x W = some (.error e, W') → Aborts x W (some (.error e, W'))
  | lasts : x W = none → Aborts x W none

/-- A break without a label, or with one of the labels, ends right behind the construct. -/
def behind (labels : List String) : Option (Completion × World) → Option (Completion × World)
  | some (.ok (.jumps .breaks none), W) => some (.ok .normal, W)
  | some (.ok (.jumps .breaks (some l)), W) =>
    if l ∈ labels then some (.ok .normal, W) else some (.ok (.jumps .breaks (some l)), W)
  | o => o

theorem behind_ok (labels : List String) (kind : Lowering.BreakableKind) (hk : kind ≠ .labelled) (exit : Exit) (W : World) :
    behind labels (some (.ok exit, W)) = some (.ok (if exit.refersTo .breaks labels kind then .normal else exit), W) := by
  rcases exit with _ | ⟨_ | _, _ | l⟩ | _
  case jumps.breaks.none =>
    have hrefers : (Exit.jumps .breaks none).refersTo .breaks labels kind = true := by
      simpa [Exit.refersTo, Lowering.JumpKind.refersTo] using hk
    rw [hrefers]
    rfl
  case jumps.breaks.some =>
    simp only [behind, Exit.refersTo, Lowering.JumpKind.refersTo, List.contains_iff_mem, beq_self_eq_true, Bool.true_and]
    split <;> rfl
  all_goals rfl

end Meaning

end ScriptEngine
