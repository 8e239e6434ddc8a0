/-
Functions and calls. Making a closure keeps the realm related to the world; a
call begins with a frame of the function's code, which runs like its body, and
goes on in the caller with the value. Main statements: `runs_closure`,
`calls_call`, `calls_construct` and `calls_eval`.
-/
import ScriptEngine.Proofs.Simulation.Instruction

namespace ScriptEngine

open Meaning Layout
open Lowering (ownEnv bodyEnv)

/-! ## Worlds and realms behind a piece of a run -/

structure Resumes (M : Mode) (r : Realm) (W : World) (r' : Realm) (W' : World) : Prop where
  rel : Rel M r' W'
  records : r.store.KeepsRecords r'.store
  value : W'.value = W.value

theorem Resumes.refl {M r W} (h : Rel M r W) : Resumes M r W r W := ⟨h, .refl _, rfl⟩

theorem Resumes.trans {M r W r' W' r'' W''} (h : Resumes M r W r' W') (h' : Resumes M r' W' r'' W'') :
    Resumes M r W r'' W'' := ⟨h'.rel, h.records.trans h'.records, h'.value.trans h.value⟩

theorem Resumes.keeps {M r W r'} (h : Rel M r W) (hk : r.Keeps r') :
    Resumes M r W r' { W with realm := M.view r' } := ⟨h.keeps hk, hk.store.records, rfl⟩

theorem Resumes.depth {M r W r' W'} (h : Resumes M r W r' W') (d : Nat) :
    Resumes M r W { r' with depth := d } { W' with realm := { W'.realm with depth := d } } := by
  refine ⟨⟨?_, h.rel.options, h.rel.closures⟩, h.records, h.value⟩
  simp only [h.rel.realm, Mode.view_setDepth]

theorem At.resume {M K} {a : Nat} {st : List Value} {r W f r' W'} (h : At M K a st r W f) (hr : Resumes M r W r' W') :
    At M K a st r' W' f :=
  ⟨⟨hr.rel, h.records.trans hr.records, h.code, h.receiver, h.purpose, h.handlers, h.temporaries, h.keys,
    fun t ht => (h.value t ht).trans hr.value.symm⟩, h.position, h.stack, h.scope⟩

/-! ## Closures -/

section

variable {M : Mode} {n : Nat} {K : Stage} {c : Setting} {act : Activation} {st : List Value}
variable {src : Source} {env : Env}

theorem perform_ok {x : Action α} {a : α} {r r' : Realm} {W : World} (h : Rel M r W) (ht : x.Tame)
    (hx : x r = .ok a r') : ∃ W', perform x W = some (.ok a, W') ∧ Resumes M r W r' W' := by
  have ht := ht.view M r
  rw [hx] at ht
  exact ⟨_, by rw [perform, h.realm, ht.2], .keeps h ht.1⟩

theorem addFunction_ok {r W src env code scope} (hM : M.linked = true) (h : Rel M r W)
    (hl : Lowered M.options.lowering env src code) (hm : Env.Matches r.store (ownEnv src env) scope) :
    ∃ W', addFunction src scope W = some (.ok ⟨r.store.callables.size⟩, W') ∧
      Resumes M r W { r with store := (r.store.addCallable (.closure code scope)).2 } W' := by
  have hout : Callable.closure src.outline scope = (Callable.closure code scope).outline := by
    rw [Callable.outline, hl.unit.1]
  have hk : r.store.KeepsRecords (r.store.addCallable (.closure code scope)).2 := .of_eq rfl
  refine ⟨{ W with
    realm := Realm.outline { r with store := (r.store.addCallable (.closure code scope)).2 }
    sources := W.sources.insert r.store.callables.size src }, ?_,
    ⟨(Mode.view_linked hM _).symm, h.options, fun _ i code' scope' hi => ?_⟩, hk, rfl⟩
  · simp only [addFunction, bind_apply, perform, Realm.withStore, h.realm, Mode.view_linked hM, Realm.outline, hout,
      Store.addCallable_outline]
    rfl
  · by_cases hlt : i = r.store.callables.size
    · subst hlt
      simp only [Store.addCallable, Array.getElem?_push_size, Option.some.injEq] at hi
      cases hi
      exact ⟨src, env, by simp, hl, hm.keeps hk⟩
    · have hi' : r.store.callables[i]? = some (.closure code' scope') := by
        rw [← hi, Store.addCallable, Array.getElem?_push, if_neg hlt]
      obtain ⟨src', env', hsrc, hl', hm'⟩ := h.closures hM i code' scope' hi'
      refine ⟨src', env', ?_, hl', hm'.keeps hk⟩
      rw [Std.TreeMap.getElem?_insert, if_neg (by simpa [Nat.compare_eq_eq] using Ne.symm hlt), hsrc]

theorem matches_own {s : Store} {chain : Chain} (h : src.bindsOwnName = true) (hm : Env.Matches s env chain) :
    Env.Matches (s.addRecord (.slots #[src.outline.name.getD ""])).2 (ownEnv src env)
      ((s.addRecord (.slots #[src.outline.name.getD ""])).1 :: chain) := by
  rw [ownEnv, if_pos h]
  exact ⟨_, chain, _, rfl, Store.record_addRecord s _, Array.size_replicate,
    hm.keeps (Store.keepsRecords_addRecord s _)⟩

theorem closure_resumes {r W src env code chain} (hM : M.linked = true) (h : Rel M r W)
    (hl : Lowered M.options.lowering env src code)
    (hm : Env.Matches r.store env chain) (f : Frame) (hf : f.scope = chain) :
    ∃ v r' W', Exec.closure code ⟨r, f⟩ = .ok .proceed ⟨r', f.push v⟩ ∧
      makeFunction src chain W = some (.ok v, W') ∧ Resumes M r W r' W' := by
  have hown : code.bindsOwnName = src.bindsOwnName := congrArg CodeUnit.bindsOwnName hl.unit.1
  have hname : code.name.getD "" = src.outline.name.getD "" :=
    congrArg (·.getD "") (congrArg CodeUnit.name hl.unit.1)
  subst hf
  cases hb : src.bindsOwnName with
  | false =>
    have hm' : Env.Matches r.store (ownEnv src env) f.scope := by rw [ownEnv, hb]; exact hm
    obtain ⟨W', hW, hr⟩ := addFunction_ok hM h hl hm'
    refine ⟨.function ⟨r.store.callables.size⟩, _, W', ?_, ?_, hr⟩
    · simp only [Exec.closure, hown, hb]
      rfl
    · simp only [makeFunction, hb, Bool.false_eq_true, if_false, bind_apply, hW]
      rfl
  | true =>
    generalize hrec : r.store.addRecord (.slots #[src.outline.name.getD ""]) = p
    have hm' : Env.Matches p.2 (ownEnv src env) (p.1 :: f.scope) := hrec ▸ matches_own hb hm
    have hadd : Realm.withStore (fun s => s.addRecord (.slots #[src.outline.name.getD ""])) r =
        .ok p.1 { r with store := p.2 } := by
      simp only [Realm.withStore, hrec]
    obtain ⟨W₁, hW₁, h₁⟩ := perform_ok h (tame_addRecord _) hadd
    obtain ⟨W₂, hW₂, h₂⟩ := addFunction_ok hM h₁.rel hl hm'
    obtain ⟨W₃, hW₃, h₃⟩ := perform_ok h₂.rel (tame_setSlot p.1 0 (.function ⟨p.2.callables.size⟩)) rfl
    refine ⟨.function ⟨p.2.callables.size⟩, _, W₃, ?_, ?_, (h₁.trans h₂).trans h₃⟩
    · simp only [Exec.closure, hown, hb, hname]
      subst hrec
      rfl
    · simp only [makeFunction, hb, if_true, bind_apply, hW₁, hW₂, hW₃]
      rfl

theorem At.agrees_closure {o : LoweringOptions} {a k : Nat} {u : CodeUnit} {r W f} (h : At M K a st r W f)
    (hi : K.frame.code.instructions[a]? = some ⟨.closure, some (.function k)⟩)
    (hk : K.frame.code.functions[k]? = some u) (hl : Lowered o env src u) (hs : src.strict = K.frame.code.strict) :
    (Machine.mk r f K.callers).Agrees := by
  have hn := h.next? hi
  refine ⟨fun op depth index hop hn' => ?_, fun name hn' => ?_, fun operand hn' => ?_, fun k' u' hn' hk' hstrict => ?_⟩
  · rw [hn] at hn'
    rcases hop with rfl | rfl <;> cases hn'
  · rw [hn] at hn'
    cases hn'
  · rw [hn] at hn'
    cases hn'
  · rw [hn] at hn'
    cases hn'
    rw [show (Machine.mk r f K.callers).frame = f from rfl, h.code] at hk' hstrict
    rw [hk] at hk'
    cases hk'
    have hu : u.strict = src.isStrict := congrArg CodeUnit.strict hl.unit.1
    rw [hu, Source.isStrict, hs, hstrict, Bool.true_or]

theorem does_closure (hM : M.linked = true) (hc : Suits M K c act) (src : Source) (hs : src.strict = c.strict) :
    Does M n K (Layout.closure c src) (makeFunction src act.chain) st (· :: st) := by
  rintro a b - ⟨k, u, hk, hl, hi, hb⟩ r W f hf
  cases hb
  rw [hc.options] at hl
  rw [← hc.unit] at hi
  obtain ⟨v, r', W', hx, hW, hr⟩ := closure_resumes hM hf.rel hl (hc.found.keeps hf.records) (f.past f.stack)
    (hf.scope.trans hc.scope)
  have hk' : (f.past f.stack).code.functions[k]? = some u := by rw [← hk, ← hc.unit, ← hf.code]; rfl
  have hexec : Instruction.exec ⟨.closure, some (.function k)⟩ ⟨r, f.past f.stack⟩ =
      .ok .proceed ⟨r', f.past (v :: st ++ K.frame.stack)⟩ := by
    simp only [Instruction.exec, bind, EStateM.bind, Exec.readFrame, hk', hx]
    rw [hf.stack]
    rfl
  have hf' := (hf.past (v :: st)).resume hr
  have hagrees := hf.agrees_closure hi (hc.unit ▸ hk) hl (hs.trans hc.code_strict.symm)
  exact .reaches (hf.reaches hi hagrees hexec) (.ok hW ⟨r', _, rfl, hf'⟩) (Nat.le_add_left n 1)

/-! ## Records of calls -/

theorem Action.get_apply (r : Realm) : (get : Action Realm) r = .ok r r := rfl

theorem callRecord_outline (code : CodeUnit) (args : List Value) (s : Store) :
    Realm.callRecord code args s.outline =
      ((Realm.callRecord code args s).1, (Realm.callRecord code args s).2.outline) := by
  have hfold : ∀ (ps : List (String × Value)) (ref : RecordRef) (s : Store),
      ps.foldl (fun s p => (s.setVariable ref p.1 p.2).2) s.outline =
        (ps.foldl (fun s p => (s.setVariable ref p.1 p.2).2) s).outline := by
    intro ps ref
    induction ps with
    | nil => exact fun _ => rfl
    | cons p ps ih =>
      intro s
      simp only [List.foldl_cons, Store.setVariable_outline, ih]
  cases hst : code.storage with
  | «static» =>
    simp only [Realm.callRecord, hst, Store.addRecord_outline]
    exact congrArg (Prod.mk _) (hfold _ _ _)
  | dynamic =>
    simp only [Realm.callRecord, hst, Store.addRecord_outline, Store.declareAll_outline]
    exact congrArg (Prod.mk _) (hfold _ _ _)

theorem callRecord_keeps (code : CodeUnit) (args : List Value) (s : Store) :
    s.Keeps (Realm.callRecord code args s).2 ∧
      (code.storage = .static → ∃ slots, (Realm.callRecord code args s).2.record (Realm.callRecord code args s).1 =
        .declarative code.bindings slots ∧ slots.size = code.bindings.size) := by
  have hfold : ∀ (ps : List (String × Value)) (ref : RecordRef) (s : Store),
      s.Keeps (ps.foldl (fun s p => (s.setVariable ref p.1 p.2).2) s) := by
    intro ps ref
    induction ps with
    | nil => exact fun s => .refl s
    | cons p ps ih => exact fun s => (Store.keeps_setVariable s ref p.1 p.2).trans (ih _)
  cases hst : code.storage with
  | «static» =>
    have hadd := Store.keeps_addRecord s (.slots code.bindings)
    have hf := hfold (code.params.zip args) (s.addRecord (.slots code.bindings)).1
      (s.addRecord (.slots code.bindings)).2
    simp only [Realm.callRecord, hst]
    refine ⟨hadd.trans hf, fun _ => ?_⟩
    obtain ⟨slots, hr, hn⟩ := hf.records _ _ _ (Store.record_addRecord s (.slots code.bindings))
    exact ⟨slots, hr, hn.trans Array.size_replicate⟩
  | dynamic =>
    simp only [Realm.callRecord, hst]
    exact ⟨((Store.keeps_addRecord s _).trans (Store.keeps_declareAll _ _ _ _)).trans (hfold _ _ _), by simp⟩

theorem tame_callRecord (code : CodeUnit) (args : List Value) :
    Action.Tame (Realm.withStore (Realm.callRecord code args)) :=
  .withStore (callRecord_outline code args) fun s => (callRecord_keeps code args s).1

theorem matches_call {s : Store} {code : CodeUnit} {scope : Chain} (h : code.outline = src.outline)
    (hm : Env.Matches s (ownEnv src env) scope) (args : List Value) :
    Env.Matches (Realm.callRecord code args s).2 (bodyEnv src env) ((Realm.callRecord code args s).1 :: scope) := by
  obtain ⟨hk, hs⟩ := callRecord_keeps code args s
  have hst : code.storage = storageOf src.tree.body := congrArg CodeUnit.storage h
  have hb : code.bindings = src.table.names := congrArg CodeUnit.bindings h
  rw [bodyEnv, ← hst]
  cases hc : code.storage with
  | dynamic => trivial
  | «static» =>
    obtain ⟨slots, hr, hn⟩ := hs hc
    rw [hb] at hr hn
    exact ⟨_, scope, slots, rfl, hr, hn, hm.keeps hk.records⟩

end

/-! ## Units that run inside others -/

/-- A unit's code stands for a body, in a chain of records. -/
structure Enters (M : Mode) (s : Store) (b : Body) (u : CodeUnit) (chain : Chain) : Prop where
  strict : u.strict = b.strict
  nonempty : chain ≠ []
  code : ∃ env q, Env.Matches s env chain ∧
    entryAt ⟨u, M.options.lowering, env, b.strict, if b.keepsValue then some 0 else none, []⟩ b.functions b.statements
      ⟨0, if b.keepsValue then 1 else 0⟩ q

def Delivers (M : Mode) (r : Realm) (W : World) (purpose : Purpose) (callers : List Frame) (v : Value) (W' : World)
    (s : Step) : Prop :=
  ∃ r', s = Machine.deliver r' purpose v callers ∧ Resumes M r W r' W'

/-- Something was raised that the frame of a unit does not handle. -/
def Unwinds (M : Mode) (r : Realm) (W : World) (purpose : Purpose) (callers : List Frame) (e : Raised) (W' : World)
    (s : Step) : Prop :=
  ∃ r' f, s = Machine.unwind e r' f callers ∧ f.handlers = [] ∧ f.purpose = purpose ∧ Resumes M r W r' W' ∧ e.Visible

structure HostSim (M : Mode) (n : Nat) (h : Host) : Prop where
  linked : M.linked = true
  check : h.check = M.check
  rounds : h.rounds = n + 1
  run : ∀ b u chain receiver purpose callers r W, Enters M r.store b u chain → Rel M r W →
    Sim M (n - 1) (h.run b chain receiver) W (.run ⟨r, .start u chain receiver purpose, callers⟩)
      (Delivers M r W purpose callers) (Unwinds M r W purpose callers)

def Comes (M : Mode) (r : Realm) (W : World) (caller : Frame) (callers : List Frame) (g : Value → Value) (v : Value)
    (W' : World) (s : Step) : Prop :=
  ∃ r', s = .run ⟨r', caller.push (g v), callers⟩ ∧ Resumes M r W r' W'

def Escapes (M : Mode) (r : Realm) (W : World) (caller : Frame) (callers : List Frame) (e : Raised) (W' : World)
    (s : Step) : Prop :=
  ∃ r', s = Machine.unwind e r' caller callers ∧ Resumes M r W r' W' ∧ e.Visible

/-- A frame begins to run in a realm as evaluation says, and gives its value to the caller. -/
def Begins (M : Mode) (n : Nat) (x : Action Frame) (y : Eval Value) (g : Value → Value) (r : Realm) (W : World) :
    Prop :=
  match x r with
  | .ok f r' => ∀ caller callers,
    Sim M (n - 1) y W (.run ⟨r', f, caller :: callers⟩) (Comes M r W caller callers g) (Escapes M r W caller callers)
  | .error e r' => (∃ f, e = .fault f ∧ M.excused f) ∨
    ∃ W', y W = some (.error e, W') ∧ Resumes M r W r' W' ∧ e.Visible

theorem Machine.unwind_cons {e : Raised} {r : Realm} {f caller : Frame} {callers : List Frame} (h : f.handlers = []) :
    Machine.unwind e r f (caller :: callers) = Machine.unwind e (r.endFrame f.purpose) caller callers := by
  rw [Machine.unwind, Machine.receive, h]

section

variable {M : Mode} {n : Nat} {h : Host} {r : Realm} {W : World}
variable {f : FunctionRef} {y : Eval Value} {x : Action Begun}

theorem Sim.nested {x : Eval α} {s : Step} {Q : α → World → Step → Prop} {E : Raised → World → Step → Prop}
    (h : Sim M n x { W with realm := { W.realm with depth := W.realm.depth + 1 } } s
      (fun v W' => Q v { W' with realm := { W'.realm with depth := W'.realm.depth - 1 } })
      (fun e W' => E e { W' with realm := { W'.realm with depth := W'.realm.depth - 1 } })) :
    Sim M n (Meaning.nested x) W s Q E := by
  refine h.follow (fun hx => ?_) (fun a W' s' hx hs => .ok ?_ hs) fun e W' s' hx hs => .error ?_ hs
  all_goals rw [Meaning.nested, hx]

theorem Resumes.endFrame {r' W'} {purpose : Purpose} (hp : purpose ≠ .program) (h : Resumes M r W r' W') :
    Resumes M r W (r'.endFrame purpose) { W' with realm := { W'.realm with depth := W'.realm.depth - 1 } } := by
  have hd : W'.realm.depth = r'.depth := by rw [h.rel.realm, Mode.view_depth]
  rw [hd]
  cases purpose with
  | program => exact (hp rfl).elim
  | call => exact h.depth _
  | construct _ => exact h.depth _

theorem invoke_sim {code scope} (hh : HostSim M n h) (hr : Rel M r W)
    (hf : r.store.callables[f.index]? = some (.closure code scope)) (receiver : Value) (args : List Value)
    {purpose : Purpose} (hp : purpose ≠ .program) :
    Begins M n (Realm.callClosure code scope receiver args purpose)
      (invoke h f code.outline scope receiver args) purpose.result r W := by
  have hdepth : W.realm.depth = r.depth := by rw [hr.realm, Mode.view_depth]
  have hmax : W.realm.options.maxCallDepth = r.options.maxCallDepth := by
    rw [hr.realm, Mode.view_maxCallDepth]
  by_cases hd : r.depth ≥ r.options.maxCallDepth
  · have hx : Realm.callClosure code scope receiver args purpose r = .error (.fault (.limit .callDepth)) r := by
      simp only [Realm.callClosure, bind, EStateM.bind, Action.get_apply, if_pos hd]
      rfl
    rw [Begins, hx]
    refine .inr ⟨W, ?_, .refl hr, fun h => by cases h⟩
    have hraise : perform (Realm.raise (.limit .callDepth) : Action Value) W =
        some (.error (.fault (.limit .callDepth)), W) := rfl
    have hget : (get : Eval World) W = some (.ok W, W) := rfl
    rw [invoke, bind_apply, hget]
    dsimp only
    rw [hdepth, hmax, if_pos hd, hraise]
  · obtain ⟨src, env, hsrc, hl, hm⟩ := hr.closures hh.linked _ _ _ hf
    generalize hrec : Realm.callRecord code args r.store = p
    have hadd : Realm.withStore (Realm.callRecord code.outline args) r = .ok p.1 { r with store := p.2 } := by
      have : Realm.callRecord code.outline args r.store = p := hrec
      simp only [Realm.withStore, this]
    obtain ⟨W₁, hW₁, h₁⟩ := perform_ok hr (tame_callRecord code.outline args) hadd
    have hx : Realm.callClosure code scope receiver args purpose r =
        .ok (.start code (p.1 :: scope) receiver purpose) { r with store := p.2, depth := r.depth + 1 } := by
      subst hrec
      simp only [Realm.callClosure, bind, EStateM.bind, Action.get_apply, if_neg hd]
      rfl
    rw [Begins, hx]
    intro caller callers
    have hget : (get : Eval World) W = some (.ok W, W) := rfl
    refine Sim.of_eq (V := W₁) (y := nested (h.run src.body (p.1 :: scope) receiver)) (.nested ?_) (by
      rw [invoke, bind_apply, hget]
      dsimp only
      rw [hdepth, hmax, if_neg hd, bind_apply, hW₁]
      dsimp only
      rw [hsrc])
    have h₂ := h₁.depth (r.depth + 1)
    have hd₁ : W₁.realm.depth = r.depth := by rw [h₁.rel.realm, Mode.view_depth]
    obtain ⟨hout, -, q, -, hq⟩ := hl.unit
    have henter : Enters M p.2 src.body code (p.1 :: scope) :=
      ⟨congrArg CodeUnit.strict hout, (fun h => by cases h), _, q, hrec ▸ matches_call hout hm args, hq⟩
    rw [hd₁]
    refine (hh.run src.body code (p.1 :: scope) receiver purpose (caller :: callers) _ _ henter h₂.rel).mono ?_ ?_
    · rintro v W' s ⟨r', rfl, hr'⟩
      exact ⟨r'.endFrame purpose, rfl, (h₂.trans hr').endFrame hp⟩
    · rintro e W' s ⟨r', g, rfl, hg, hgp, hr', he⟩
      rw [Machine.unwind_cons hg, hgp]
      exact ⟨r'.endFrame purpose, rfl, (h₂.trans hr').endFrame hp, he⟩

/-! ## Code given to eval -/

theorem tame_declareVariables (chain : Chain) (names : Array String) :
    Action.Tame (Realm.modifyStore (declareVariables chain names)) := by
  refine .modifyStore (fun s => ?_) fun s => ?_
  · rw [declareVariables, declareVariables, Store.variableScope_outline]
    cases s.variableScope chain <;> simp
  · rw [declareVariables]
    cases s.variableScope chain with
    | nil => exact .refl s
    | cons record _ => exact s.keeps_declareAll record names true

theorem enters_eval {p : Program} {strict : Bool} {code : CodeUnit} {chain : Chain} (s : Store)
    (hc : compileEval M.options.lowering strict p = .ok code) (hchain : chain ≠ []) :
    code.bindings = (programTable p).names ∧
      Enters M s (programBody p (strict || M.options.lowering.isStrict)) code chain := by
  have hc : Lowering.lowerProgram M.options.lowering .eval .eval strict p = .ok code := hc
  obtain ⟨hb, hs, -, q, -, hq⟩ := Lowering.lowerProgram_ok (by decide) rfl hc
  exact ⟨hb, hs, hchain, [], q, trivial, hq⟩

theorem evalText_sim (hM : M.Fits) (hh : HostSim M n h) (hr : Rel M r W) (source : String) {chain : Chain}
    (hchain : chain ≠ []) (receiver : Value) (strict : Bool) :
    Begins M n (Realm.evalText source chain receiver strict) (evalText h source chain receiver strict) id r W := by
  cases hp : Program.parse source with
  | error e =>
    have hx : Realm.evalText source chain receiver strict r = .error (.fault (.source e)) r := by
      rw [Realm.evalText, hp]
      rfl
    rw [Begins, hx]
    exact .inr ⟨W, by rw [evalText, hp]; rfl, .refl hr, nofun⟩
  | ok p =>
    have hfits := hM source strict p hp
    rw [← hr.options] at hfits
    cases hcode : compileEval r.options.lowering strict p with
    | error f =>
      have hx : Realm.evalText source chain receiver strict r = .error (.fault f) r := by
        simp only [Realm.evalText, hp, bind, EStateM.bind, pure, EStateM.pure, Action.get_apply, hcode]
        rfl
      rw [Begins, hx]
      rw [hcode] at hfits
      rcases hfits with hf | ⟨hcheck, hv⟩
      · exact .inl ⟨f, rfl, hf⟩
      · exact .inr ⟨W, by rw [evalText, hp]; dsimp only; rw [hh.check, hcheck]; rfl, .refl hr, hv⟩
    | ok code =>
      rw [hcode] at hfits
      have hoptions : r.options.lowering = M.options.lowering := congrArg EngineOptions.lowering hr.options
      obtain ⟨hb, henter⟩ := enters_eval (declareVariables chain (programTable p).names r.store)
        (hoptions ▸ hcode) hchain
      have hx : Realm.evalText source chain receiver strict r = .ok (.start code chain receiver .program)
          { r with store := declareVariables chain (programTable p).names r.store } := by
        rw [← hb]
        simp only [Realm.evalText, hp, bind, EStateM.bind, pure, EStateM.pure, Action.get_apply, hcode]
        rfl
      rw [Begins, hx]
      intro caller callers
      obtain ⟨W₁, hW₁, h₁⟩ := perform_ok hr (tame_declareVariables chain (programTable p).names) rfl
      have hstrict : W.realm.options.lowering.isStrict = M.options.lowering.isStrict := by
        rw [hr.realm, Mode.view_isStrict, hr.options]
      have hget : (get : Eval World) W = some (.ok W, W) := rfl
      have hW : evalText h source chain receiver strict W =
          h.run (programBody p (strict || M.options.lowering.isStrict)) chain receiver W₁ := by
        rw [evalText, hp]
        dsimp only
        rw [hh.check, hfits]
        dsimp only
        rw [bind_apply, hget]
        dsimp only
        rw [bind_apply, hW₁, hstrict]
      refine ((hh.run _ code chain receiver .program (caller :: callers) _ W₁ henter h₁.rel).mono ?_ ?_).of_eq hW
      · rintro v W' s ⟨r', rfl, hr'⟩
        exact ⟨r', rfl, h₁.trans hr'⟩
      · rintro e W' s ⟨r', g, rfl, hg, hgp, hr', he⟩
        rw [Machine.unwind_cons hg, hgp]
        exact ⟨r', rfl, h₁.trans hr', he⟩

/-! ## Calls -/

/-- A call begins in a realm as evaluation says: it has a value at once, fails, or runs a frame
that gives its value to the caller. -/
def Calls (M : Mode) (n : Nat) (x : Action Begun) (y : Eval Value) (r : Realm) (W : World) : Prop :=
  match x r with
  | .ok (.value v) r' => ∃ W', y W = some (.ok v, W') ∧ Resumes M r W r' W'
  | .ok (.frame g) r' => ∀ caller callers,
    Sim M (n - 1) y W (.run ⟨r', g, caller :: callers⟩) (Comes M r W caller callers id) (Escapes M r W caller callers)
  | .error e r' => (∃ f, e = .fault f ∧ M.excused f) ∨
    ∃ W', y W = some (.error e, W') ∧ Resumes M r W r' W' ∧ e.Visible

theorem Begins.calls {x : Action Frame} {x' : Action Begun} {y' : Eval Value} {r₁ W₁} (h : Begins M n x y id r₁ W₁)
    (hr : Resumes M r W r₁ W₁) (hx : x' r = (do return .frame (← x) : Action Begun) r₁) (hy : y' W = y W₁) :
    Calls M n x' y' r W := by
  rw [Begins] at h
  rw [Calls, hx]
  simp only [bind, EStateM.bind]
  cases hf : x r₁ with
  | ok f r' =>
    rw [hf] at h
    intro caller callers
    refine ((h caller callers).mono ?_ ?_).of_eq hy
    · rintro v W' s ⟨r'', rfl, hr'⟩
      exact ⟨r'', rfl, hr.trans hr'⟩
    · rintro e W' s ⟨r'', rfl, hr', he⟩
      exact ⟨r'', rfl, hr.trans hr', he⟩
  | error e r' =>
    rw [hf] at h
    rcases h with h | ⟨W', hW, hr', he⟩
    · exact .inl h
    · exact .inr ⟨W', hy.trans hW, hr.trans hr', he⟩

theorem Begins.result {x : Action Frame} {g : Value → Value} (h : Begins M n x y g r W) :
    Begins M n x (do return g (← y)) id r W := by
  rw [Begins] at h ⊢
  cases hf : x r with
  | ok f r' =>
    rw [hf] at h
    exact fun caller callers => (h caller callers).bind fun v W' s _ hs => .pure hs
  | error e r' =>
    rw [hf] at h
    rcases h with h | ⟨W', hW, hr', he⟩
    · exact .inl h
    · exact .inr ⟨W', by rw [bind_apply, hW], hr', he⟩

theorem Calls.congr {x' : Action Begun} {y' : Eval Value} (h : Calls M n x' y' r W) (hx : x r = x' r) (hy : y W = y' W) :
    Calls M n x y r W := by
  simp only [Calls, Sim, hx, hy] at h ⊢
  exact h

theorem calls_value {v : Value} {r' W'} (hx : x r = .ok (.value v) r') (hy : y W = some (.ok v, W'))
    (h : Resumes M r W r' W') :
    Calls M n x y r W := by
  rw [Calls, hx]
  exact ⟨W', hy, h⟩

theorem calls_raise {f : Fault} (hr : Rel M r W) (hf : f.Visible) (hx : x r = .error (.fault f) r)
    (hy : y W = some (.error (.fault f), W)) :
    Calls M n x y r W := by
  rw [Calls, hx]
  exact .inr ⟨W, hy, .refl hr, hf⟩

theorem calls_builtin (hM : M.Fits) (hh : HostSim M n h) (hr : Rel M r W) (b : Builtin) (args : List Value) :
    Calls M n (Realm.callBuiltin b args) (callBuiltin h b args) r W := by
  cases b with
  | eval =>
    match args with
    | [] => exact calls_value rfl rfl (.refl hr)
    | .string source :: rest =>
      have hglobal : W.realm.global = r.global := by rw [hr.realm, Mode.view_global]
      have hW : callBuiltin h .eval (.string source :: rest) W =
          evalText h source [W.realm.global] .undefined false W := rfl
      rw [hglobal] at hW
      refine (evalText_sim hM hh hr source (List.cons_ne_nil _ _) .undefined false).calls (.refl hr) ?_ hW
      simp only [Realm.callBuiltin, Realm.evalGlobal, bind, EStateM.bind, Action.get_apply]
    | .undefined :: _ | .null :: _ | .boolean _ :: _ | .number _ :: _ | .object _ :: _ | .function _ :: _ =>
      exact calls_value rfl rfl (.refl hr)
  | print =>
    obtain ⟨W', hW, h'⟩ := perform_ok hr (tame_print args) rfl
    exact calls_value rfl (by rw [callBuiltin, bind_apply, hW]; rfl) h'
  | makeError kind =>
    obtain ⟨W₁, hW₁, h₁⟩ := perform_ok hr (tame_messageOf args) rfl
    obtain ⟨W₂, hW₂, h₂⟩ := perform_ok h₁.rel (tame_errorObject kind (Realm.messageOf r.store args)) rfl
    exact calls_value rfl (by rw [callBuiltin, bind_apply, hW₁]; exact hW₂) (h₁.trans h₂)

theorem Store.callables_of_closure {s : Store} {code : CodeUnit} {scope : Chain}
    (h : s.callable f = .closure code scope) :
    s.callables[f.index]? = some (.closure code scope) := by
  rw [Store.callable, Array.getD_eq_getD_getElem?] at h
  cases hf : s.callables[f.index]? with
  | none =>
    rw [hf] at h
    cases h
  | some _ =>
    rw [hf] at h
    exact congrArg some h

theorem Rel.callable (hM : M.linked = true) (hr : Rel M r W) (f : FunctionRef) :
    W.realm.store.callable f = (r.store.callable f).outline := by
  rw [hr.realm, Mode.view_linked hM, Realm.outline_store, Store.callable_outline]

theorem calls_call (hM : M.Fits) (hh : HostSim M n h) (hr : Rel M r W) (callee receiver : Value) (args : List Value)
    (description : String) :
    Calls M n (Realm.call callee receiver args description) (Meaning.call h callee receiver args description) r W := by
  cases callee with
  | function f =>
    have hread : perform (Realm.readStore fun s => s.callable f) W = some (.ok (r.store.callable f).outline, W) := by
      rw [← hr.callable hh.linked]
      rfl
    cases hf : r.store.callable f with
    | builtin b =>
      rw [hf] at hread
      refine (calls_builtin hM hh hr b args).congr ?_ ?_
      · simp only [Realm.call, bind, EStateM.bind, Realm.readStore, hf]
      · rw [Meaning.call, bind_apply, hread]
        rfl
    | closure code scope =>
      rw [hf] at hread
      have hcall : Purpose.call ≠ .program := by simp
      refine (invoke_sim hh hr (Store.callables_of_closure hf) receiver args hcall).calls (.refl hr) ?_ ?_
      · simp only [Realm.call, bind, EStateM.bind, Realm.readStore, hf]
      · rw [Meaning.call, bind_apply, hread]
        rfl
  | _ => exact calls_raise hr (f := .type (.notFunction description)) (fun h => by cases h) rfl rfl

theorem constructor?_outline (s : Store) (v : Value) :
    Realm.constructor? s.outline v = (Realm.constructor? s v).map fun p => (p.1, p.2.outline) := by
  cases v with
  | function f =>
    simp only [Realm.constructor?, Store.callable_outline, Callable.isConstructor_outline]
    split <;> rfl
  | _ => rfl

theorem callable_of_constructor? {s : Store} {v : Value} {c : Callable} (h : Realm.constructor? s v = some (f, c)) :
    s.callable f = c ∧ c.isConstructor = true := by
  cases v with
  | function g =>
    simp only [Realm.constructor?] at h
    split at h
    · rename_i hc
      cases h
      exact ⟨rfl, hc⟩
    · cases h
  | _ => cases h

theorem calls_construct (hh : HostSim M n h) (hr : Rel M r W) (target : Value) (args : List Value) :
    Calls M n (Realm.construct target args) (Meaning.construct h target args) r W := by
  have hread : perform (Realm.readStore fun s => Realm.constructor? s target) W =
      some (.ok ((Realm.constructor? r.store target).map fun p => (p.1, p.2.outline)), W) := by
    rw [← constructor?_outline, ← Realm.outline_store, ← Mode.view_linked hh.linked, ← hr.realm]
    rfl
  cases hf : Realm.constructor? r.store target with
  | none =>
    rw [hf] at hread
    have htext : W.realm.store.text target = r.store.text target := by
      rw [hr.realm, M.view_read r Store.text_outline]
    refine calls_raise hr (f := .type (.notConstructor (r.store.text target))) (fun h => by cases h) ?_ ?_
    · simp only [Realm.construct, bind, EStateM.bind, Realm.readStore, hf]
      rfl
    · rw [← htext, Meaning.construct, bind_apply, hread]
      rfl
  | some p =>
    obtain ⟨f, c⟩ := p
    rw [hf] at hread
    obtain ⟨hc, hcon⟩ := callable_of_constructor? hf
    cases c with
    | builtin b =>
      cases b with
      | makeError kind =>
        obtain ⟨W₁, hW₁, h₁⟩ := perform_ok hr (tame_messageOf args) rfl
        obtain ⟨W₂, hW₂, h₂⟩ := perform_ok h₁.rel (tame_errorObject kind (Realm.messageOf r.store args)) rfl
        obtain ⟨W₃, hW₃, h₃⟩ := perform_ok h₂.rel (tame_madeWith ⟨r.store.objects.size⟩ f) rfl
        have hW : callBuiltin h (.makeError kind) args W = some (.ok (.object ⟨r.store.objects.size⟩), W₂) := by
          rw [callBuiltin, bind_apply, hW₁]
          exact hW₂
        refine calls_value (v := .object ⟨r.store.objects.size⟩) ?_ ?_ ((h₁.trans h₂).trans h₃)
        · simp only [Realm.construct, bind, EStateM.bind, Realm.readStore, hf]
          rfl
        · rw [Meaning.construct, bind_apply, hread]
          simp only [Option.map_some, Callable.outline, bind_apply, hW, hW₃]
          rfl
      | _ => cases hcon
    | closure code scope =>
      obtain ⟨W₁, hW₁, h₁⟩ := perform_ok hr (tame_makeObject (Object.empty.madeWith f)) rfl
      have hcon : Purpose.construct ⟨r.store.objects.size⟩ ≠ .program := by simp
      have hinv := invoke_sim hh h₁.rel (Store.callables_of_closure hc) (.object ⟨r.store.objects.size⟩) args hcon
      refine hinv.result.calls h₁ ?_ ?_
      · simp only [Realm.construct, bind, EStateM.bind, Realm.readStore, hf]
        rfl
      · rw [Meaning.construct, bind_apply, hread]
        have hW₁ : perform (Realm.withStore fun s => s.addObject (Object.empty.madeWith f)) W = _ := hW₁
        simp only [Option.map_some, Callable.outline, bind_apply, hW₁]
        rfl

def directEval (act : Activation) : List Value → Action Begun
  | .string source :: _ => do return .frame (← Realm.evalText source act.chain act.receiver act.strict)
  | v :: _ => return .value v
  | [] => return .value .undefined

def callDirectly (act : Activation) (callee receiver : Value) (args : List Value) (description : String) :
    Action Begun := do
  if ← Realm.readStore fun s => Exec.isEval s callee then directEval act args
  else Realm.call callee receiver args description

theorem isEval_outline (s : Store) (v : Value) : Exec.isEval s.outline v = Exec.isEval s v := by
  cases v with
  | function f =>
    simp only [Exec.isEval, Store.callable_outline]
    cases s.callable f <;> rfl
  | _ => rfl

theorem calls_eval (hM : M.Fits) (hh : HostSim M n h) (hr : Rel M r W) {act : Activation} (hchain : act.chain ≠ [])
    (callee receiver : Value) (args : List Value) (description : String) :
    Calls M n (callDirectly act callee receiver args description)
      (callEval h act callee receiver args description) r W := by
  have hread : perform (Realm.readStore fun s => Exec.isEval s callee) W =
      some (.ok (Exec.isEval r.store callee), W) := by
    rw [← M.view_read r (g := fun s => Exec.isEval s callee) fun s => isEval_outline s callee, ← hr.realm]
    rfl
  cases he : Exec.isEval r.store callee with
  | false =>
    rw [he] at hread
    refine (calls_call hM hh hr callee receiver args description).congr ?_ ?_
    · simp only [callDirectly, bind, EStateM.bind, Realm.readStore, he]
      rfl
    · unfold callEval
      rw [bind_apply, hread]
      rfl
  | true =>
    rw [he] at hread
    have hx : callDirectly act callee receiver args description r = directEval act args r := by
      simp only [callDirectly, bind, EStateM.bind, Realm.readStore, he]
      rfl
    cases args with
    | nil => exact calls_value hx (by unfold callEval; rw [bind_apply, hread]; rfl) (.refl hr)
    | cons v rest =>
      cases v with
      | string source =>
        refine (evalText_sim hM hh hr source hchain act.receiver act.strict).calls (.refl hr) hx ?_
        unfold callEval
        rw [bind_apply, hread]
        rfl
      | _ => exact calls_value hx (by unfold callEval; rw [bind_apply, hread]; rfl) (.refl hr)

end

/-! ## Instructions that call -/

/-- The frame goes on when a call in its realm has begun. -/
def Frame.await (f : Frame) (stack : List Value) :
    EStateM.Result Raised Realm Begun → EStateM.Result Raised Activity Next
  | .ok (.value v) r => .ok .proceed ⟨r, f.past (v :: stack)⟩
  | .ok (.frame g) r => .ok (.enter g) ⟨r, f.past stack⟩
  | .error e r => .error e ⟨r, f.past stack⟩

section

variable {M : Mode} {n : Nat} {h : Host} {K : Stage} {c : Setting} {act : Activation} {st : List Value}
variable {a : Nat} {pre args : List Value}

theorem At.enters {i : Instruction} {r r' W f g f'} (hf : At M K a pre r W f)
    (hi : K.frame.code.instructions[a]? = some i) (hp : i.Plain K.frame.code.strict)
    (hx : i.exec ⟨r, f.past f.stack⟩ = .ok (.enter g) ⟨r', f'⟩) :
    Reaches 1 (.run ⟨r, f, K.callers⟩) (.run ⟨r', g, f' :: K.callers⟩) := by
  have hone := hf.step hi (hf.agrees hi hp)
    fun e A hA => by rw [hx] at hA; cases hA
  rwa [hf.step_eq hi, hx] at hone

theorem Runs.begin {i : Instruction} {x : Action Begun} {y : Eval Value} (hi : K.frame.code.instructions[a]? = some i)
    (hp : i.Plain K.frame.code.strict)
    (hx : ∀ r W f, At M K a pre r W f → i.exec ⟨r, f.past f.stack⟩ = f.await (st ++ K.frame.stack) (x r))
    (hy : ∀ r W, Rel M r W → Calls M n x y r W) :
    Runs M n K y a (a + 1) pre (· :: st) := by
  intro r W f hf
  have hx := hx r W f hf
  have hy := hy r W hf.rel
  have hs := hf.agrees hi hp
  rw [Calls] at hy
  match hr : x r with
  | .ok (.value v) r' =>
    rw [hr] at hx hy
    obtain ⟨W', hW, hr'⟩ := hy
    exact .reaches (hf.reaches hi hs hx) (.ok hW ⟨r', _, rfl, (hf.past (v :: st)).resume hr'⟩) (Nat.le_add_left n 1)
  | .ok (.frame g) r' =>
    rw [hr] at hx hy
    refine .reaches (hf.enters hi hp hx) ((hy _ K.callers).mono ?_ ?_) (by omega)
    · rintro v W' s ⟨r'', rfl, hr'⟩
      exact ⟨r'', _, rfl, (hf.past (v :: st)).resume hr'⟩
    · rintro e W' s ⟨r'', rfl, hr', he⟩
      exact ⟨r'', _, st, rfl, ((hf.past st).resume hr').toOn, rfl, he⟩
  | .error e r' =>
    rw [hr] at hx hy
    rcases hy with ⟨fault, rfl, hex⟩ | ⟨W', hW, hr', he⟩
    · exact .odd ⟨_, fault, rfl, hex, i, _, hf.next? hi, hx⟩
    · exact .reaches (hf.raises hi hs hx he)
        (.error hW ⟨r', _, st, rfl, ((hf.past st).resume hr').toOn, rfl, he⟩) (Nat.le_add_left n 1)

theorem Frame.popMany_reverse {f : Frame} {rest : List Value} (hf : f.stack = args.reverse ++ rest) :
    f.popMany args.length = (some args, { f with stack := rest }) := by
  rw [Frame.popMany, hf, if_pos (by simp), ← List.length_reverse, List.take_left, List.drop_left, List.reverse_reverse]

theorem popMany_ok {f g : Frame} {n : Nat} (r : Realm) (hf : f.popMany n = (some args, g)) :
    Exec.popMany n ⟨r, f⟩ = .ok args ⟨r, g⟩ := by
  simp only [Exec.popMany, Exec.takeOff, hf]

theorem continueWith_ok (x : Action Begun) (r : Realm) (f : Frame) (stack : List Value) :
    (do Exec.continueWith (← Exec.inRealm x)) ⟨r, f.past stack⟩ = f.await stack (x r) := by
  simp only [bind, EStateM.bind, Exec.inRealm]
  cases x r with
  | ok begun r' => cases begun <;> rfl
  | error e r' => rfl

theorem does_new (hc : Suits M K c act) (hh : HostSim M n h) (target : Value) (args : List Value) :
    Does M n K (emitWith c .new (.count args.length)) (Meaning.construct h target args)
      (args.reverse ++ target :: st) (· :: st) := by
  intro a b _ ⟨hi, hb⟩
  cases hb
  rw [← hc.unit] at hi
  refine .begin hi rfl (fun r W f hf => ?_) fun r W hr => calls_construct hh hr target args
  have hpop : (f.past f.stack).popMany args.length = (some args, f.past (target :: st ++ K.frame.stack)) :=
    Frame.popMany_reverse (by rw [hf.stack, List.append_assoc]; rfl)
  rw [← continueWith_ok]
  have hexec : Instruction.exec ⟨.new, some (.count args.length)⟩ = Exec.construct args.length := rfl
  simp only [hexec, Exec.construct, bind, EStateM.bind, popMany_ok r hpop]
  rfl

theorem At.popMany {callee receiver : Value} {r W f} (hf : At M K a (args.reverse ++ receiver :: callee :: st) r W f) :
    (f.past f.stack).popMany args.length = (some args, f.past (receiver :: callee :: st ++ K.frame.stack)) :=
  Frame.popMany_reverse (by rw [hf.stack, List.append_assoc]; rfl)

theorem At.nameAt {k : Nat} {name : String} {r W f} (op : Opcode) (hf : At M K a pre r W f)
    (hk : K.frame.code.constants[k]? = some (.string name)) (stack : List Value) :
    Exec.nameAt op k ⟨r, f.past stack⟩ = .ok name ⟨r, f.past stack⟩ := by
  have hk : (f.past stack).code.constants[k]? = some (.string name) := by
    rw [← hk, ← hf.code]
    rfl
  simp only [Exec.nameAt, bind, EStateM.bind, Exec.readFrame, hk]
  rfl

theorem does_call (hM : M.Fits) (hc : Suits M K c act) (hh : HostSim M n h) (callee receiver : Value)
    (args : List Value) (description : String) :
    Does M n K (callAt c .call args.length description) (Meaning.call h callee receiver args description)
      (args.reverse ++ receiver :: callee :: st) (· :: st) := by
  intro a b _ ⟨k, hk, hi, hb⟩
  cases hb
  rw [← hc.unit] at hi hk
  refine .begin hi rfl (fun r W f hf => ?_)
    fun r W hr => calls_call hM hh hr callee receiver args description
  have hexec : Instruction.exec ⟨.call, some (.call args.length k)⟩ = Exec.call .call args.length k := rfl
  have hpop : Exec.pop2 ⟨r, f.past (receiver :: callee :: st ++ K.frame.stack)⟩ =
      .ok (callee, receiver) ⟨r, f.past (st ++ K.frame.stack)⟩ := rfl
  have hname := hf.nameAt .call hk (st ++ K.frame.stack)
  rw [← continueWith_ok, hexec]
  simp only [Exec.call, bind, EStateM.bind, popMany_ok r hf.popMany, hpop, Exec.readStore]
  rw [if_neg (by simp)]
  simp only [EStateM.bind, hname]

theorem does_callEval (hM : M.Fits) (hc : Suits M K c act) (hh : HostSim M n h) (callee receiver : Value)
    (args : List Value) (description : String) :
    Does M n K (callAt c .callEval args.length description) (callEval h act callee receiver args description)
      (args.reverse ++ receiver :: callee :: st) (· :: st) := by
  intro a b _ ⟨k, hk, hi, hb⟩
  cases hb
  rw [← hc.unit] at hi hk
  refine .begin hi rfl (fun r W f hf => ?_)
    fun r W hr => calls_eval hM hh hr hc.chain callee receiver args description
  have hexec : Instruction.exec ⟨.callEval, some (.call args.length k)⟩ = Exec.call .callEval args.length k := rfl
  have hpop : Exec.pop2 ⟨r, f.past (receiver :: callee :: st ++ K.frame.stack)⟩ =
      .ok (callee, receiver) ⟨r, f.past (st ++ K.frame.stack)⟩ := rfl
  have hname := hf.nameAt .callEval hk (st ++ K.frame.stack)
  have hscope : (f.past (st ++ K.frame.stack)).scope = act.chain := hf.scope.trans hc.scope
  have hreceiver : (f.past (st ++ K.frame.stack)).receiver = act.receiver := hf.receiver.trans hc.receiver
  have hstrict : (f.past (st ++ K.frame.stack)).code.strict = act.strict := by
    rw [hc.strict, ← hc.unit_strict, ← hc.unit, ← hf.code]
    rfl
  rw [← continueWith_ok, hexec]
  simp only [Exec.call, bind, EStateM.bind, popMany_ok r hf.popMany, hpop, Exec.readStore, Exec.inRealm, callDirectly,
    Realm.readStore]
  cases Exec.isEval r.store callee with
  | false =>
    rw [if_neg (by simp), if_neg (by simp)]
    simp only [EStateM.bind, hname]
    rfl
  | true =>
    rw [if_pos (by simp), if_pos rfl]
    cases args with
    | nil => rfl
    | cons v rest =>
      cases v with
      | string source =>
        simp only [EStateM.bind, Exec.readFrame, id, hscope, hreceiver, hstrict, directEval, Exec.inRealm, bind]
        cases Realm.evalText source act.chain act.receiver act.strict r <;> rfl
      | _ => rfl

end

end ScriptEngine
