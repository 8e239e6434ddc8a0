/-
Scopes and exceptions. A scope and an exception region are left on every way
out: behind the body, and on the way of a jump or a return. A finalizer then
runs while the way out is pending, and what is returned or thrown waits in a
temporary. Main statements: `does_scoped` and `does_attempt`.
-/
import ScriptEngine.Proofs.Simulation.Exit

namespace ScriptEngine

open Meaning Layout
open Lowering (JumpKind)

/-! ## Leaving -/

/-- An instruction leads from a stage to the one around it. -/
def Leaving (M : Mode) (K K' : Stage) (c : Setting) (op : Opcode) : Prop :=
  ∀ pc st r W f, At M K' pc st r W f → c.unit.instructions[pc]? = some ⟨op, none⟩ →
    ∃ f', Reaches 1 (.run ⟨r, f, K'.callers⟩) (.run ⟨r, f', K.callers⟩) ∧ At M K (pc + 1) st r W f' ∧
      f'.temporaries = f.temporaries

/-- The ways out of a construct begin with the instruction that leaves it, and then run its
finalizer. -/
structure Opens (c c' : Setting) (op : Opcode) (finalizer : Option Code) : Prop where
  jumps : ∀ kind label q q', jumpAt c' kind label c'.regions q q' →
    (emit c op ++ (finalizer.getD .nil ++ jumpAt c kind label c.regions)) q q'
  returns : ∀ t q q', returnAt c' t c'.regions q q' →
    (emit c op ++ (finalizer.getD .nil ++ returnAt c t c.regions)) q q'
  plain : c'.regions.any Region.isFinalized = false → finalizer = none ∧ c.regions.any Region.isFinalized = false

/-- How a construct ends when it has been left but its finalizer has still to run. -/
def Left (M : Mode) (K : Stage) (c : Setting) (finalizer : Option Code) (b : Nat) (exit : Exit) (W : World)
    (s : Step) : Prop :=
  match exit with
  | .normal => ∃ st, Arrives M K b st W s
  | .jumps kind label => Waits M K (finalizer.getD .nil ++ jumpAt c kind label c.regions) none W s
  | .returns v => (finalizer = none ∧ c.regions.any Region.isFinalized = false ∧ Leaves M K v W s) ∨
      ∃ t, Waits M K (finalizer.getD .nil ++ returnAt c t c.regions) (some (t, v)) W s

section

variable {M : Mode} {n : Nat} {h : Host} {K K' : Stage} {c c' : Setting} {act : Activation} {C D : Code} {x : Eval Exit}
  {op : Opcode} {finalizer : Option Code} {a b : Point} {m : Nat} {W : World} {s : Step} {exit : Exit}
variable {E : Raised → World → Step → Prop} {p : Part} {y : Act} {st : List Value} {target : Nat}

theorem Waits.nil {kept} (h : Waits M K (.nil ++ C) kept W s) : Waits M K C kept W s := by
  obtain ⟨q, q', st, r, f, ⟨m, hm, -, hC⟩, h⟩ := h
  cases hm
  exact ⟨q, q', st, r, f, hC, h⟩

theorem Left.ends (h : Left M K c none m exit W s) : Ends M K c m exit W s := by
  cases exit with
  | normal => exact h
  | jumps kind label => exact Waits.nil h
  | returns v =>
    obtain ⟨-, hfin, hs⟩ | ⟨t, hs⟩ := h
    · exact .inl ⟨hfin, hs⟩
    · exact .inr ⟨t, hs.nil⟩

theorem Waits.leave {kept} (hw : K.Within K') (hl : Leaving M K K' c op) (h : Waits M K' (emit c op ++ D) kept W s) :
    ∃ s', Reaches 1 s s' ∧ Waits M K D kept W s' := by
  obtain ⟨q, q', st, r, f, ⟨m, ⟨hi, hm⟩, -, hD⟩, hq, rfl, hf, hkept⟩ := h
  cases hm
  obtain ⟨f', hr, hf', ht⟩ := hl _ st r W f hf hi
  refine ⟨_, hr, _, q', st, r, f', hD, Nat.le_trans hw.taken hq, rfl, hf', fun t v htv => ?_⟩
  obtain ⟨hle, hlt, hv⟩ := hkept t v htv
  exact ⟨Nat.le_trans hw.taken hle, hlt, by rw [← hv, Frame.temporary, ht, Frame.temporary]⟩

theorem Waits.imp {kept} (hCD : ∀ q q', C q q' → D q q') (h : Waits M K C kept W s) : Waits M K D kept W s := by
  obtain ⟨q, q', st, r, f, hC, h⟩ := h
  exact ⟨q, q', st, r, f, hCD q q' hC, h⟩

theorem Sim.leave (hw : K.Within K') (hl : Leaving M K K' c op) (ho : Opens c c' op finalizer)
    (hi : c.unit.instructions[m]? = some ⟨op, none⟩) (hx : Sim M n x W s (Ends M K' c' m) E) :
    Sim M n x W s (Left M K c finalizer (m + 1)) E := by
  refine hx.after fun exit W' s' hs => ?_
  cases exit with
  | normal =>
    obtain ⟨st, r, f, rfl, hf⟩ := hs
    obtain ⟨f', hr, hf', -⟩ := hl m st r W' f hf hi
    exact ⟨1, _, hr, st, r, f', rfl, hf'⟩
  | jumps kind label =>
    obtain ⟨s'', hr, hs⟩ := Waits.leave hw hl (Waits.imp (ho.jumps kind label) hs)
    exact ⟨1, s'', hr, hs⟩
  | returns v =>
    obtain ⟨hfin, hs⟩ | ⟨t, hs⟩ := hs
    · obtain ⟨hnone, hfin⟩ := ho.plain hfin
      exact ⟨0, s', .refl, .inl ⟨hnone, hfin, hs.outer hw⟩⟩
    · obtain ⟨s'', hr, hs⟩ := Waits.leave hw hl (Waits.imp (ho.returns t) hs)
      exact ⟨1, s'', hr, .inr ⟨t, hs⟩⟩

/-! ## Scopes -/

theorem leaving_popScope {ref : RecordRef} (hc : Suits M K c act) (hw : K.Within K')
    (hh : K'.frame.handlers = K.frame.handlers) (hs : K'.frame.scope = ref :: K.frame.scope) :
    Leaving M K K' c .popScope := by
  intro pc st r W f hf hi
  obtain ⟨inner, outer, hchain⟩ := List.exists_cons_of_ne_nil hc.chain
  have hscope : K.frame.scope = inner :: outer := hc.scope.trans hchain
  have hfs : (f.past f.stack).scope = ref :: inner :: outer := by
    rw [← hscope, ← hs]
    exact hf.scope
  have hx : Instruction.exec ⟨.popScope, none⟩ ⟨r, f.past f.stack⟩ =
      .ok .proceed ⟨r, { f.past f.stack with scope := inner :: outer }⟩ := by
    simp only [Instruction.exec, Exec.popScope, bind, EStateM.bind, Exec.readFrame, hfs]
    rfl
  rw [← hc.unit, ← hw.code] at hi
  refine ⟨{ f.past f.stack with scope := inner :: outer }, ?_,
    ⟨hf.toOn.outer hw ⟨rfl, rfl, rfl, rfl, rfl⟩ (hf.handlers.trans hh), ?_, ?_, hscope.symm⟩, rfl⟩
  · rw [← hw.callers]
    exact hf.reaches hi (hf.agrees hi rfl) hx
  · exact (hf.past st).position
  · rw [← hw.stack]
    exact hf.stack

theorem opens_scope (env : Env) : Opens c (c.inScope env) .popScope none where
  jumps kind label q q' hC := by
    rw [jumpAt_unit (c := c) (by rfl)] at hC
    exact Code.seq_right (fun p _ h => ⟨p, rfl, Nat.le_refl _, h⟩) hC
  returns t q q' hC := by
    rw [returnAt_unit (c := c) (by rfl)] at hC
    exact Code.seq_right (fun p _ h => ⟨p, rfl, Nat.le_refl _, h⟩) hC
  plain h := ⟨rfl, h⟩

theorem Suits.inScope {ref : RecordRef} {env : Env} (hc : Suits M K c act) (hw : K.Within K')
    (hs : K'.frame.scope = ref :: K.frame.scope) (hm : Env.Matches K'.store env (ref :: act.chain)) :
    Suits M K' (c.inScope env) { act with chain := ref :: act.chain } where
  unit := hw.code.trans hc.unit
  options := hc.options
  strict := hc.strict
  unit_strict := hc.unit_strict
  completion := hw.completion.trans hc.completion
  keepsValue := hc.keepsValue
  scope := hs.trans (congrArg _ hc.scope)
  chain := nofun
  receiver := hw.receiver.trans hc.receiver
  found := hm
  taken t ht := Nat.lt_of_lt_of_le (hc.taken t ht) hw.taken

theorem scope_sim {record : Record} {env : Env} {i : Instruction} {pre : List Value} {r f} (st : List Value)
    (hc : Suits M K c act) (hp : PartDoes M n p y) (ha : K.taken ≤ a.temps) (hi : c.unit.instructions[a.pc]? = some i)
    (hplain : i.Plain K.frame.code.strict) (hl : (p (c.inScope env) ++ emit c .popScope) ⟨a.pc + 1, a.temps⟩ b)
    (hm : Env.Matches (r.store.addRecord record).2 env ((r.store.addRecord record).1 :: act.chain))
    (hf : At M K a.pc pre r W f)
    (hx : i.exec ⟨r, f.past f.stack⟩ = Exec.pushScope record ⟨r, f.past (st ++ K.frame.stack)⟩) :
    Sim M n (inScope record y act) W (.run ⟨r, f, K.callers⟩) (Ends M K c b.pc) (Fails M K) := by
  obtain ⟨m, hC, -, hpop, hb⟩ := hl
  cases hb
  let r' : Realm := { r with store := (r.store.addRecord record).2 }
  let g : Frame := { f.past (st ++ K.frame.stack) with scope := (r.store.addRecord record).1 :: f.scope }
  have hkeeps : r.Keeps r' := ⟨rfl, rfl, r.store.keeps_addRecord record⟩
  have hv : perform (Realm.withStore fun s => s.addRecord record) W =
      some (.ok (r.store.addRecord record).1, { W with realm := M.view r' }) := by
    have hx := (tame_addRecord record).view M r
    rw [perform, hf.rel.realm, hx.2]
    rfl
  have hf' : At M K (a.pc + 1) st r' { W with realm := M.view r' } (f.past (st ++ K.frame.stack)) :=
    ⟨hf.toOn.past.keeps hkeeps, (hf.past st).position, rfl, hf.scope⟩
  have hw : K.Within (K.sub g r' K.taken) := hf'.toOn.within ⟨rfl, rfl, rfl, rfl, rfl⟩ (Nat.le_refl _)
  have hg : At M (K.sub g r' K.taken) (a.pc + 1) st r' { W with realm := M.view r' } g :=
    hf'.sub ⟨rfl, rfl, rfl, rfl, rfl⟩ hf'.position rfl
  have hscope : (K.sub g r' K.taken).frame.scope = (r.store.addRecord record).1 :: K.frame.scope :=
    congrArg _ hf.scope
  have hbody := (hp _ _ _ (hc.inScope hw hscope hm) ⟨a.pc + 1, a.temps⟩ m st ha hC r' _ g hg).mono (fun _ _ _ hs => hs)
    fun e W' s hs => hs.outer hw hf.handlers
  have hleave := (hbody.leave hw (leaving_popScope hc hw hf.handlers hscope) (opens_scope env) hpop).mono
    (fun _ _ _ hs => hs.ends) fun _ _ _ hs => hs
  rw [← hc.unit] at hi
  refine .reaches (hf.reaches hi (hf.agrees hi hplain) hx) (hleave.of_eq ?_)
    (Nat.le_add_left n 1)
  rw [inScope, bind_apply, hv]

theorem does_scoped (hM : M.Fits) (hc : Suits M K c act) (hh : HostSim M n h) (object : Expr) (hp : PartDoes M n p y) :
    StmtDoes M n K c (scopedAt c object p) (evalScoped h object y act) := by
  refine .seq (does_expr hM hc hh object) fun v a b st ha hl r W f hf => ?_
  obtain ⟨m, ⟨hi, hm⟩, -, hl⟩ := hl
  cases hm
  have he : perform (α := Exit) (do Realm.raise (.type (.withObject (← Realm.readStore fun s => s.text v)))) W =
      some (.error (.fault (.type (.withObject (r.store.text v)))), W) := by
    have htext : W.realm.store.text v = r.store.text v := by
      rw [hf.rel.realm, M.view_read r Store.text_outline]
    rw [← htext]
    rfl
  have hvisible : Raised.Visible (.fault (.type (.withObject (r.store.text v)))) := nofun
  cases v with
  | object ref =>
    refine scope_sim st hc hp ha hi rfl hl trivial hf ?_
    rw [hf.stack]
    rfl
  | _ =>
    rw [← hc.unit] at hi
    refine .reaches (hf.raises hi (hf.agrees hi rfl) ?_ hvisible)
      (.error he ⟨r, _, st, rfl, (hf.past st).toOn, rfl, hvisible⟩) (Nat.le_add_left n 1)
    rw [hf.stack]
    rfl

theorem catch_sim {v : Value} {r f} (hc : Suits M K c act) (hp : PartDoes M n p y) (param : Identifier)
    (ha : K.taken ≤ a.temps) (hl : catchAt c param p a b) (hf : At M K a.pc (v :: st) r W f) :
    Sim M n (inScope (.declarative #[param.name] #[v]) y act) W (.run ⟨r, f, K.callers⟩) (Ends M K c b.pc) (Fails M K) := by
  obtain ⟨m, ⟨k, hk, hi, hm⟩, -, hl⟩ := hl
  cases hm
  have hmatch : Env.Matches (r.store.addRecord (.declarative #[param.name] #[v])).2 (#[param.name] :: c.env)
      ((r.store.addRecord (.declarative #[param.name] #[v])).1 :: act.chain) :=
    ⟨_, act.chain, #[v], rfl, Store.record_addRecord _ _, rfl,
      (hc.found.keeps hf.records).keeps (Store.keepsRecords_addRecord _ _)⟩
  refine scope_sim st hc hp ha hi rfl hl hmatch hf ?_
  have hk' : (f.past f.stack).code.constants[k]? = some (.string param.name) := by
    rw [← hk, ← hc.unit, ← hf.code]
    rfl
  simp only [Instruction.exec, bind, EStateM.bind, nameOperand_ok .pushCatchScope (A := ⟨r, f.past f.stack⟩) hk']
  rw [hf.stack]
  rfl

/-! ## Exception regions -/

structure Stage.Guarded (K K' : Stage) (target : Nat) : Prop extends K.Within K' where
  scope : K'.frame.scope = K.frame.scope
  handlers : ∃ height, K.frame.stack.length ≤ height ∧
    K'.frame.handlers = ⟨target, height, K.frame.scope⟩ :: K.frame.handlers

/-- What was raised is for the handler at a position. -/
def Caught (M : Mode) (K : Stage) (target : Nat) (e : Raised) (W : World) (s : Step) : Prop :=
  ∃ K', K.Guarded K' target ∧ Fails M K' e W s

theorem leaving_leaveTry (hc : Suits M K c act) (hg : K.Guarded K' target) : Leaving M K K' c .leaveTry := by
  intro pc st r W f hf hi
  obtain ⟨height, -, hh⟩ := hg.handlers
  have hfh : f.handlers.tail = K.frame.handlers := by rw [hf.handlers, hh]; rfl
  rw [← hc.unit, ← hg.code] at hi
  refine ⟨{ f.past f.stack with handlers := f.handlers.tail }, ?_,
    ⟨hf.toOn.outer hg.toWithin ⟨rfl, rfl, rfl, rfl, rfl⟩ hfh, ?_, ?_, hf.scope.trans hg.scope⟩, rfl⟩
  · rw [← hg.callers]
    exact hf.reaches hi (hf.agrees hi rfl) rfl
  · exact (hf.past st).position
  · rw [← hg.stack]
    exact hf.stack

theorem opens_attempt (finalizer : Option Code) :
    Opens c (c.within (.attempt finalizer)) .leaveTry finalizer where
  jumps kind label q q' hC := by
    rw [jumpAt_within] at hC
    exact hC
  returns t q q' hC := by
    rw [returnAt_within] at hC
    exact hC
  plain h := by
    cases finalizer with
    | none => exact ⟨rfl, h⟩
    | some F => cases h

theorem At.enterTry {pc : Nat} {r f} (hc : Suits M K c act)
    (hi : c.unit.instructions[pc]? = some ⟨.enterTry, some (.target target)⟩) (hf : At M K pc st r W f) :
    ∃ K' f', K.Guarded K' target ∧ K'.taken = K.taken ∧
      Reaches 1 (.run ⟨r, f, K.callers⟩) (.run ⟨r, f', K'.callers⟩) ∧ At M K' (pc + 1) st r W f' := by
  let g : Frame := { f.past f.stack with handlers := ⟨target, f.stack.length, f.scope⟩ :: f.handlers }
  have halike : f.Alike g := ⟨rfl, rfl, rfl, rfl, rfl⟩
  have hheight : K.frame.stack.length ≤ f.stack.length := by
    rw [hf.stack, List.length_append]
    omega
  rw [← hc.unit] at hi
  refine ⟨K.sub g r K.taken, g, ⟨hf.toOn.within halike (Nat.le_refl _), hf.scope, f.stack.length, hheight, ?_⟩, rfl,
    hf.reaches hi (hf.agrees hi rfl) rfl,
    hf.sub halike (hf.past st).position hf.stack⟩
  exact congr (congrArg _ (congrArg _ hf.scope)) hf.handlers

/-! ## Completions -/

theorem Machine.unwind_handled {e : Raised} {r r' : Realm} {f : Frame} {callers : List Frame} {handler : Handler}
    {rest : List Handler} {v : Value} (hh : f.handlers = handler :: rest) (hv : r.exceptionValue e = (some v, r')) :
    Machine.unwind e r f callers = .run ⟨r', Machine.handle f handler rest v, callers⟩ := by
  cases callers <;> simp only [Machine.unwind, Machine.receive, hh, hv]

theorem Caught.arrives {e : Raised} (h : Caught M K target e W s) :
    ∃ v r' st, W.realm.exceptionValue e = (some v, r') ∧ Arrives M K target (v :: st) { W with realm := r' } s := by
  obtain ⟨K', hg, r, f, st, rfl, hf, hst, he⟩ := h
  obtain ⟨v, r', hv, hk, ho⟩ := Mode.exceptionValue_view he M r
  obtain ⟨height, hle, hh⟩ := hg.handlers
  refine ⟨v, M.view r', st.drop (f.stack.length - height), by rw [hf.rel.realm]; exact ho, r',
    Machine.handle f ⟨target, height, K.frame.scope⟩ K.frame.handlers v, ?_,
    ⟨(hf.keeps hk).outer hg.toWithin ⟨rfl, rfl, rfl, rfl, rfl⟩ rfl, rfl, ?_, rfl⟩⟩
  · rw [Machine.unwind_handled (hf.handlers.trans hh) hv, hg.callers]
  · have hlen : f.stack.length - height ≤ st.length := by
      rw [hst, hg.stack, List.length_append]
      omega
    rw [Machine.handle, hst, hg.stack]
    rw [hst, hg.stack] at hlen
    rw [List.drop_append_of_le_length hlen]
    rfl

/-- How a guarded construct ends: what it raised waits for the handler. -/
def Completed (M : Mode) (K : Stage) (target : Nat) (Q : Exit → World → Step → Prop) (pending : Completion)
    (W : World) (s : Step) : Prop :=
  match pending with
  | .ok exit => Q exit W s
  | .error e => ∃ v st, e = .thrown v ∧ Arrives M K target (v :: st) W s

theorem Sim.completionOf {Q : Exit → World → Step → Prop} (hx : Sim M n x W s Q (Caught M K target)) :
    Sim M n (Meaning.completionOf x) W s (Completed M K target Q) E := by
  refine hx.follow (fun hx => ?_) (fun exit W' s' hx hs => ?_) fun e W' s' hx hs => ?_
  · rw [Meaning.completionOf, hx]
  · have hc : Meaning.completionOf x W = some (.ok (.ok exit), W') := by rw [Meaning.completionOf, hx]
    exact .ok hc hs
  · obtain ⟨v, r', st, hv, hs⟩ := hs.arrives
    have hc : Meaning.completionOf x W = some (.ok (.error (.thrown v)), { W' with realm := r' }) := by
      rw [Meaning.completionOf, hx]
      dsimp only
      rw [hv]
    exact .ok hc ⟨v, st, rfl, hs⟩

theorem finalizer_sim {z : Eval Exit} {kept : Option (Nat × Value)} (hc : Suits M K c act) (hp : PartDoes M n p y)
    (hs : Waits M K (p c ++ D) kept W s)
    (hz : ∀ W' s', Waits M K D kept W' s' → Sim M n z W' s' (Ends M K c m) (Fails M K)) :
    Sim M n (andThen (y act) z) W s (Ends M K c m) (Fails M K) := by
  obtain ⟨q, q', st, r, f, ⟨q₁, hC, hq₁, hD⟩, hq, rfl, hf, hkept⟩ := hs
  have hl := hf.isLater hq
  have hx := (hp _ c act (hc.later hf hq) q q₁ st (Nat.le_refl _) hC r W f hf.later).mono (fun _ _ _ hs => hs)
    fun e W' s hs => hs.back hl
  refine hx.bind fun exit W' s' _ hs => ?_
  cases exit with
  | normal =>
    obtain ⟨st', r', f', rfl, hf'⟩ := hs
    refine hz W' _ ⟨q₁, q', st', r', f', hD, Nat.le_trans hq hq₁, rfl, hf'.back hl, fun t v ht => ?_⟩
    obtain ⟨hle, hlt, hv⟩ := hkept t v ht
    exact ⟨hle, Nat.lt_of_lt_of_le hlt hq₁, (hf'.temporaries t hlt (hc.completion_ne hle)).trans hv⟩
  | jumps kind label => exact .pure (Waits.back hl hs)
  | returns v => exact .pure (Ends.back (b := m) hl hs)

theorem finalize_sim {rethrow : Nat} {pending : Completion} (hc : Suits M K c act) (hp : PartDoes M n p y)
    (ha : K.taken ≤ a.temps) (hl : finalizerAt c (some p) b.pc rethrow a b)
    (hs : Completed M K rethrow (Left M K c (some (p c)) a.pc) pending W s) :
    Sim M n (finalize y act pending) W s (Ends M K c b.pc) (Fails M K) := by
  obtain ⟨m₁, hC, h₁, m₂, hjump, h₂, m₃, ⟨rfl, rfl⟩, -, m₄, ⟨hi, hm₄⟩, -, hl⟩ := hl
  cases hm₄
  have ha₂ := Nat.le_trans ha (Nat.le_trans h₁ h₂)
  match pending with
  | .ok .normal =>
    obtain ⟨st, r, f, rfl, hf⟩ := hs
    have hs : Waits M K (p c ++ jump c .jump b.pc) none W (.run ⟨r, f, K.callers⟩) :=
      ⟨a, m₂, st, r, f, ⟨m₁, hC, h₁, hjump⟩, ha, rfl, hf, nofun⟩
    refine finalizer_sim hc hp hs fun W' s' hs => ?_
    obtain ⟨q, q', st', r', f', hj, -, rfl, hf', -⟩ := hs
    obtain ⟨f'', hr, hf''⟩ := hf'.jumps hc hj.1
    exact .reaches hr (.pure ⟨st', r', f'', rfl, hf''⟩) (Nat.le_add_left n 1)
  | .ok (.jumps kind label) => exact finalizer_sim hc hp hs fun W' s' hs => .pure hs
  | .ok (.returns v) =>
    obtain ⟨hnone, -⟩ | ⟨t, hs⟩ := hs
    · cases hnone
    · exact finalizer_sim hc hp hs fun W' s' hs => .pure (.inr ⟨t, hs⟩)
  | .error e =>
    obtain ⟨v, st, rfl, r, f, rfl, hf⟩ := hs
    refine .reaches (hf.storeLocal hc hi) ?_ (Nat.le_add_left n 1)
    have hkept : ∀ t w, some (m₂.temps, v) = some (t, w) → K.taken ≤ t ∧ t < m₂.temps + 1 ∧
        ((f.past (st ++ K.frame.stack)).setTemporary m₂.temps v).temporary t = w := by
      rintro t w ⟨⟩
      exact ⟨ha₂, Nat.lt_succ_self _, (Frame.temporary_setTemporary _ _ _ _).trans (if_pos rfl)⟩
    refine finalizer_sim hc hp ⟨_, b, st, r, _, hl, Nat.le_succ_of_le ha₂, rfl, hf.stored hc ha₂, hkept⟩
      fun W' s' hs => ?_
    obtain ⟨q, q', st', r', f', ⟨m₅, ⟨hload, hm₅⟩, -, hthrow, -⟩, -, rfl, hf', hv⟩ := hs
    cases hm₅
    rw [← hc.unit] at hload hthrow
    have hx : Instruction.exec ⟨.loadLocal, some (.temporary m₂.temps)⟩ ⟨r', f'.past f'.stack⟩ =
        .ok .proceed ⟨r', f'.past (v :: st' ++ K.frame.stack)⟩ := by
      rw [← (hv _ _ rfl).2.2, hf'.stack]
      rfl
    have hf'' := hf'.past (v :: st')
    refine .reaches ((hf'.reaches hload (hf'.agrees hload rfl) hx).trans
      (hf''.raises hthrow (hf''.agrees hthrow rfl) rfl trivial))
      (.error rfl ⟨r', _, st', rfl, (hf''.past st').toOn, rfl, trivial⟩) (Nat.le_add_left n 2)

/-! ## Statements with handlers -/

def HandlerDoes (M : Mode) (n : Nat) : Option (Identifier × Part) → Option (Identifier × Act) → Prop
  | some (param, p), some (param', y) => param = param' ∧ PartDoes M n p y
  | none, none => True
  | _, _ => False

theorem guarded_sim {pc : Nat} {r f} (hc : Suits M K c act)
    (hi : c.unit.instructions[pc]? = some ⟨.enterTry, some (.target target)⟩)
    (hleave : c.unit.instructions[m]? = some ⟨.leaveTry, none⟩) (hf : At M K pc st r W f)
    (hx : ∀ K' f', K'.taken = K.taken → Suits M K' (c.within (.attempt finalizer)) act → At M K' (pc + 1) st r W f' →
      Sim M n x W (.run ⟨r, f', K'.callers⟩) (Ends M K' (c.within (.attempt finalizer)) m) (Fails M K')) :
    Sim M n x W (.run ⟨r, f, K.callers⟩) (Left M K c finalizer (m + 1)) (Caught M K target) := by
  obtain ⟨K', f', hg, ht, hr, hf'⟩ := hf.enterTry hc hi
  have hx' := (hx K' f' ht ((hc.inner hg.toWithin hg.scope).within _) hf').mono (fun _ _ _ hs => hs)
    fun e W' s' hs => (⟨K', hg, hs⟩ : Caught M K target e W' s')
  exact .reaches hr (hx'.leave hg.toWithin (leaving_leaveTry hc hg) (opens_attempt finalizer) hleave)
    (Nat.le_add_left n 1)

theorem Sim.leftJumps (hc : Suits M K c act) (hx : Sim M n x W s (Left M K c finalizer m) E)
    (hi : c.unit.instructions[m]? = some ⟨.jump, some (.target target)⟩) :
    Sim M n x W s (Left M K c finalizer target) E := by
  refine hx.after fun exit W' s' hs => ?_
  cases exit with
  | normal =>
    obtain ⟨st, r, f, rfl, hf⟩ := hs
    obtain ⟨f', hr, hf'⟩ := hf.jumps hc hi
    exact ⟨1, _, hr, st, r, f', rfl, hf'⟩
  | jumps kind label => exact ⟨0, s', .refl, hs⟩
  | returns v => exact ⟨0, s', .refl, hs⟩

theorem Ends.left (h : Ends M K c m exit W s) : Left M K c none m exit W s := by
  cases exit with
  | normal => exact h
  | jumps kind label => exact Waits.imp (fun q _ hC => ⟨q, rfl, Nat.le_refl _, hC⟩) h
  | returns v =>
    obtain ⟨hfin, hs⟩ | ⟨t, hs⟩ := h
    · exact .inl ⟨rfl, hfin, hs⟩
    · exact .inr ⟨t, hs.imp fun q _ hC => ⟨q, rfl, Nat.le_refl _, hC⟩⟩

theorem handled_sim {z : Act} {param : Identifier} {rethrow caught : Nat} (hc : Suits M K c act)
    (hp : PartDoes M n p z)
    (hl : handlerAt c (some (param, p)) finalizer.isSome (c.within (.attempt finalizer)) rethrow caught a b)
    (ha : K.taken ≤ a.temps) (hx : Sim M n (y act) W s (Left M K c finalizer b.pc) (Caught M K caught)) :
    Sim M n (do handle (some (param, z)) act (← completionOf (y act))) W s (Left M K c finalizer b.pc)
      (if finalizer.isSome then Caught M K rethrow else Fails M K) := by
  obtain ⟨m, ⟨rfl, rfl⟩, -, hl⟩ := hl
  refine hx.completionOf.bind fun pending W' s' _ hs => ?_
  match pending with
  | .ok exit => exact .pure hs
  | .error e =>
    obtain ⟨v, st, rfl, r, f, rfl, hf⟩ := hs
    cases finalizer with
    | none => exact (catch_sim hc hp param ha hl hf).mono (fun _ _ _ hs => hs.left) fun _ _ _ hs => hs
    | some F =>
      obtain ⟨m₁, ⟨hi, hm₁⟩, -, m₂, hcatch, -, hleave, hb⟩ := hl
      cases hm₁
      cases hb
      exact guarded_sim hc hi hleave hf fun K' f' ht hc' hf' =>
        catch_sim hc' hp param (by rw [ht]; exact ha) hcatch hf'

theorem does_attempt {handler : Option (Identifier × Part)} {handler' : Option (Identifier × Act)}
    {final : Option Part} {final' : Option Act} (hc : Suits M K c act) (hp : PartDoes M n p y)
    (hh : HandlerDoes M n handler handler') (hfin : OptionDoes M n final final') :
    StmtDoes M n K c (attemptAt c p handler final) (evalAttempt y handler' final' act) := by
  intro a b st ha hl r W f hf
  rw [attemptAt] at hl
  split at hl
  · exact hl.elim
  rename_i hsome
  obtain ⟨done, rethrow, caught, m₁, ⟨hi, hm₁⟩, -, m₂, hblock, h₂, m₃, ⟨hleave, hm₃⟩, -, after, m₄, ⟨hjump, hm₄⟩, -, m₅,
    hhandler, h₅, m₆, ⟨rfl, rfl⟩, -, m₇, hfinal, h₇, rfl, rfl⟩ := hl
  cases hm₁
  cases hm₃
  cases hm₄
  have ha₄ : K.taken ≤ Point.temps ⟨m₂.pc + 1 + 1, m₂.temps⟩ := Nat.le_trans ha h₂
  have ha₅ := Nat.le_trans ha₄ h₅
  have hx : Sim M n (y act) W (.run ⟨r, f, K.callers⟩) (Left M K c (final.map fun f => f c) m₅.pc)
      (Caught M K (if handler.isSome then caught else rethrow)) :=
    (guarded_sim hc hi hleave hf fun K' f' ht hc' hf' =>
      hp K' _ act hc' _ m₂ st (by rw [ht]; exact ha) hblock r W f' hf').leftJumps hc hjump
  clear hi hblock
  rcases handler with - | ⟨param, q⟩ <;> rcases handler' with - | ⟨_, z⟩
  · rcases final with - | q' <;> rcases final' with - | z'
    · exact (hsome rfl).elim
    · exact hfin.elim
    · exact hfin.elim
    · cases hhandler
      exact hx.completionOf.bind fun pending W' s' _ hs => finalize_sim hc hfin ha₅ hfinal hs
  · exact hh.elim
  · exact hh.elim
  · obtain ⟨rfl, hq⟩ := hh
    rcases final with - | q' <;> rcases final' with - | z'
    · cases hfinal
      exact (handled_sim hc hq hhandler ha₄ hx).mono (fun _ _ _ hs => hs.ends) fun _ _ _ hs => hs
    · exact hfin.elim
    · exact hfin.elim
    · exact (handled_sim hc hq hhandler ha₄ hx).completionOf.bind fun pending W' s' _ hs =>
        finalize_sim hc hfin ha₅ hfinal hs

end

end ScriptEngine
