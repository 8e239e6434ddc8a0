/-
Loops. Between the parts of a loop the frame stands at a position, and for a
loop over keys the keys still to come wait in the temporary of the loop; the
parts leave that temporary alone. One round of the evaluation is one pass over
the code of a round, wherever the code goes on for the next test. Main
statement: `does_loop`, for both ways to lay out a loop.
-/
import ScriptEngine.Proofs.Simulation.Exit

namespace ScriptEngine

open Meaning Layout
open Lowering (testsLast)

/-- The keys that are still to come, for a loop over keys. -/
def Holds (head : LoopHead) (k : Nat) (keys : List String) (f : Frame) : Prop :=
  match head with
  | .forIn .. => f.keysOf k = keys
  | _ => True

/-- A round can begin: a loop over keys has one left. -/
def Ready (head : LoopHead) (keys : List String) : Prop :=
  match head with
  | .forIn .. => keys ≠ []
  | _ => True

/-- The temporary of a loop over keys is one that the code at a point leaves alone. -/
def Room (K : Stage) (head : LoopHead) (k : Nat) (a : Point) : Prop :=
  K.taken ≤ a.temps ∧
    match head with
    | .forIn .. => K.taken ≤ k ∧ k < a.temps
    | _ => True

theorem Room.mono {K head k} {a b : Point} (h : Room K head k a) (hab : a.temps ≤ b.temps) : Room K head k b := by
  refine ⟨Nat.le_trans h.1 hab, ?_⟩
  cases head with
  | forIn target object => exact ⟨h.2.1, Nat.lt_of_lt_of_le h.2.2 hab⟩
  | _ => trivial

def Loops (M : Mode) (K : Stage) (head : LoopHead) (k : Nat) (keys : List String) (pc : Nat) (top : List Value)
    (W : World) (s : Step) : Prop :=
  ∃ st r f, s = .run ⟨r, f, K.callers⟩ ∧ At M K pc (top ++ st) r W f ∧ Holds head k keys f

section

variable {M : Mode} {n : Nat} {h : Host} {K : Stage} {c : Setting} {act : Activation} {head : LoopHead} {k : Nat}
  {keys : List String} {a b : Point} {W : World} {s : Step}
variable {target : KeyTarget} {object : Expr} {st : List Value} {labels : List String} {done : Nat} {p : Part}
  {x : Act}

theorem Loops.inner {pre : List Value} {pc : Nat} (hc : Suits M K c act) (ha : Room K head k a)
    (hs : Loops M K head k keys pc pre W s) :
    ∃ K' st r f, K.Later K' ∧ Suits M K' c act ∧ K'.taken = a.temps ∧ s = .run ⟨r, f, K'.callers⟩ ∧
      At M K' pc (pre ++ st) r W f ∧
      ∀ {pc' top st' r' W' f'}, At M K' pc' (top ++ st') r' W' f' →
        Loops M K head k keys pc' top W' (.run ⟨r', f', K'.callers⟩) := by
  obtain ⟨st, r, f, rfl, hf, hk⟩ := hs
  have hl := hf.isLater ha.1
  refine ⟨_, st, r, f, hl, hc.later hf ha.1, rfl, rfl, hf.later, fun {_ _ st' r' _ f'} hf' => ?_⟩
  refine ⟨st', r', f', rfl, hf'.back hl, ?_⟩
  cases head with
  | forIn target object => exact (hf'.keys k ha.2.2).trans hk
  | _ => trivial

theorem Loops.does {C : Code} {x : Eval α} (pre : List Value) (post : α → List Value) (hc : Suits M K c act)
    (ha : Room K head k a) (hC : C a b)
    (hx : ∀ K' st, Suits M K' c act → Does M n K' C x (pre ++ st) fun v => post v ++ st)
    (hs : Loops M K head k keys a.pc pre W s) :
    Sim M n x W s (fun v => Loops M K head k keys b.pc (post v)) (Fails M K) := by
  obtain ⟨K', st, r, f, hl, hc', ht, rfl, hf, hback⟩ := hs.inner hc ha
  refine (hx K' st hc' a b (Nat.le_of_eq ht) hC r W f hf).mono (fun v W' s hs => ?_) fun e W' s hs => hs.back hl
  obtain ⟨r', f', rfl, hf'⟩ := hs
  exact hback hf'

theorem Loops.jumps {p : Nat} (hc : Suits M K c act) (ha : Room K head k a)
    (hi : c.unit.instructions[a.pc]? = some ⟨.jump, some (.target p)⟩) (hs : Loops M K head k keys a.pc [] W s) :
    ∃ s', Reaches 1 s s' ∧ Loops M K head k keys p [] W s' := by
  obtain ⟨K', st, r, f, -, hc', -, rfl, hf, hback⟩ := hs.inner hc ha
  obtain ⟨f', hr, hf'⟩ := hf.jumps hc' hi
  exact ⟨_, hr, hback hf'⟩

theorem Loops.jumpsWhen {p : Nat} {op : Opcode} {v : Value} (truth : Bool) (hc : Suits M K c act)
    (ha : Room K head k a) (hop : op = if truth then .jumpIfTrue else .jumpIfFalse)
    (hi : c.unit.instructions[a.pc]? = some ⟨op, some (.target p)⟩) (hs : Loops M K head k keys a.pc [v] W s) :
    ∃ s', Reaches 1 s s' ∧ Loops M K head k keys (if v.toBoolean == truth then p else a.pc + 1) [] W s' := by
  obtain ⟨K', st, r, f, -, hc', -, rfl, hf, hback⟩ := hs.inner hc ha
  obtain ⟨f', hr, hf'⟩ := hf.jumpsWhen truth hc' hop hi
  exact ⟨_, hr, hback hf'⟩

/-! ## Keys -/

theorem On.setKeys {r W f} (h : On M K r W f) (hk : K.taken ≤ k) (keys : List String) :
    On M K r W (f.setKeys k keys) := by
  refine ⟨h.rel, h.records, h.code, h.receiver, h.purpose, h.handlers, h.temporaries, fun t ht => ?_, h.value⟩
  rw [Frame.keysOf_setKeys, if_neg (by omega), h.keys t ht]

theorem prepareKeys_sim {v : Value} {r f} (hc : Suits M K c act) (hk : K.taken ≤ k)
    (hi : c.unit.instructions[a.pc]? = some ⟨.forInPrepare, some (.temporary k)⟩) (hf : At M K a.pc (v :: st) r W f) :
    Sim M n (perform (Realm.readStore fun s => s.loopKeys v)) W (.run ⟨r, f, K.callers⟩)
      (fun keys => Loops M K (.forIn target object) k keys (a.pc + 1) []) (Fails M K) := by
  rw [← hc.unit] at hi
  have hx : Instruction.exec ⟨.forInPrepare, some (.temporary k)⟩ ⟨r, f.past f.stack⟩ =
      .ok .proceed ⟨r, (f.past (st ++ K.frame.stack)).setKeys k (r.store.loopKeys v)⟩ := by
    rw [hf.stack]
    rfl
  have hv : perform (Realm.readStore fun s => s.loopKeys v) W = some (.ok (r.store.loopKeys v), W) := by
    rw [← M.view_read r Store.loopKeys_outline, ← hf.rel.realm]
    rfl
  refine .reaches (hf.reaches hi (hf.agrees hi rfl) hx)
    (.ok hv ⟨st, r, _, rfl, ⟨(hf.past st).toOn.setKeys hk _, (hf.past st).position, rfl, hf.scope⟩, ?_⟩)
    (Nat.le_add_left n 1)
  exact (Frame.keysOf_setKeys _ _ _ _).trans (if_pos rfl)

theorem nextKey_reaches {key : String} (hc : Suits M K c act) (hk : K.taken ≤ k)
    (hi : c.unit.instructions[a.pc]? = some ⟨.forInNext, some (.temporary k)⟩)
    (hs : Loops M K (.forIn target object) k (key :: keys) a.pc [] W s) :
    ∃ s', Reaches 1 s s' ∧ Loops M K (.forIn target object) k keys (a.pc + 1) [.string key] W s' := by
  obtain ⟨st, r, f, rfl, hf, hkeys⟩ := hs
  rw [← hc.unit] at hi
  have hkeys' : (f.past f.stack).keysOf k = key :: keys := hkeys
  have hx : Instruction.exec ⟨.forInNext, some (.temporary k)⟩ ⟨r, f.past f.stack⟩ =
      .ok .proceed ⟨r, (f.past (.string key :: st ++ K.frame.stack)).setKeys k keys⟩ := by
    simp only [Instruction.exec, bind, EStateM.bind, Exec.temporaryOperand, pure, EStateM.pure, Exec.nextKey,
      Exec.readFrame, hkeys']
    rw [hf.stack]
    rfl
  refine ⟨_, hf.reaches hi (hf.agrees hi rfl) hx, st, r, _, rfl,
    ⟨(hf.past (.string key :: st)).toOn.setKeys hk _, (hf.past (.string key :: st)).position, rfl, hf.scope⟩, ?_⟩
  exact (Frame.keysOf_setKeys _ _ _ _).trans (if_pos rfl)

theorem hasKey_reaches (hc : Suits M K c act)
    (hi : c.unit.instructions[a.pc]? = some ⟨.forInHasNext, some (.temporary k)⟩)
    (hs : Loops M K (.forIn target object) k keys a.pc [] W s) :
    ∃ s', Reaches 1 s s' ∧ Loops M K (.forIn target object) k keys (a.pc + 1) [.boolean !keys.isEmpty] W s' := by
  obtain ⟨st, r, f, rfl, hf, hkeys⟩ := hs
  rw [← hc.unit] at hi
  have hkeys' : (f.past f.stack).keysOf k = keys := hkeys
  have hx : Instruction.exec ⟨.forInHasNext, some (.temporary k)⟩ ⟨r, f.past f.stack⟩ =
      .ok .proceed ⟨r, f.past (.boolean (!keys.isEmpty) :: st ++ K.frame.stack)⟩ := by
    simp only [Instruction.exec, bind, EStateM.bind, Exec.temporaryOperand, pure, EStateM.pure, Exec.hasKey,
      Exec.readFrame, hkeys']
    rw [hf.stack]
    rfl
  exact ⟨_, hf.reaches hi (hf.agrees hi rfl) hx, st, r, _, rfl,
    hf.past (.boolean (!keys.isEmpty) :: st), hkeys⟩

/-! ## Parts -/

theorem loopObject_sim (hM : M.Fits) (hc : Suits M K c act) (hh : HostSim M n h) (ha : K.taken ≤ a.temps)
    (hk : K.taken ≤ k) (hl : (exprAt c object ++ emitWith c .forInPrepare (.temporary k)) a b) {r f}
    (hf : At M K a.pc st r W f) :
    Sim M n (do
      let v ← evalExpr h act object
      perform (Realm.readStore fun s => s.loopKeys v)) W (.run ⟨r, f, K.callers⟩)
      (fun keys => Loops M K (.forIn target object) k keys b.pc []) (Fails M K) := by
  obtain ⟨m, hC, -, hi, hb⟩ := hl
  cases hb
  refine (does_expr hM hc hh object st a m ha hC r W f hf).bind fun v W' s _ hs => ?_
  obtain ⟨r', f', rfl, hf'⟩ := hs
  exact prepareKeys_sim hc hk hi hf'

theorem loopInit_sim (hM : M.Fits) (hc : Suits M K c act) (hh : HostSim M n h) (ha : Room K head k a)
    (hl : loopInitAt c head k a b) {r f} (hf : At M K a.pc st r W f) :
    Sim M n (loopInit h head act) W (.run ⟨r, f, K.callers⟩) (fun keys => Loops M K head k keys b.pc []) (Fails M K) := by
  match head with
  | .whileTest _ | .doWhile _ | .counted none _ _ =>
    cases hl
    exact .pure ⟨st, r, f, rfl, hf, trivial⟩
  | .counted (some (.declare ds)) _ _ =>
    refine (does_declarators hM hc hh ds st a b ha.1 hl r W f hf).bind fun _ W' s _ hs => ?_
    obtain ⟨r', f', rfl, hf'⟩ := hs
    exact .pure ⟨st, r', f', rfl, hf', trivial⟩
  | .counted (some (.evaluate e)) _ _ =>
    refine ((does_expr hM hc hh e st).behind (fun v => does_pop hc v) a b ha.1 hl r W f hf).bind
      fun _ W' s _ hs => ?_
    obtain ⟨r', f', rfl, hf'⟩ := hs
    exact .pure ⟨st, r', f', rfl, hf', trivial⟩
  | .forIn (.declare d) object =>
    obtain ⟨m, hC, hm, hl⟩ := hl
    refine (does_declarators hM hc hh [d] st a m ha.1 hC r W f hf).bind fun _ W' s _ hs => ?_
    obtain ⟨r', f', rfl, hf'⟩ := hs
    exact loopObject_sim hM hc hh (Nat.le_trans ha.1 hm) ha.2.1 hl hf'
  | .forIn (.assign _) object => exact loopObject_sim hM hc hh ha.1 ha.2.1 hl hf

theorem loopCondition_sim (hM : M.Fits) (hc : Suits M K c act) (hh : HostSim M n h) (ha : Room K head k a)
    (hl : loopConditionAt c head k a b) (hs : Loops M K head k keys a.pc [] W s) :
    Sim M n (loopTest h head act keys) W s
      (fun t W' s' => (t = true → Ready head keys) ∧ ∃ v : Value, v.toBoolean = t ∧ Loops M K head k keys b.pc [v] W' s')
      (Fails M K) := by
  have hexpr : ∀ test, exprAt c test a b → (∀ t, t = true → Ready head keys) →
      Sim M n (do return (← evalExpr h act test).toBoolean) W s
        (fun t W' s' => (t = true → Ready head keys) ∧
          ∃ v : Value, v.toBoolean = t ∧ Loops M K head k keys b.pc [v] W' s') (Fails M K) := by
    intro test hC hready
    refine (Loops.does [] (fun v => [v]) hc ha hC
      (fun K' st hc' => does_expr hM hc' hh test st) hs).bind fun v W' s' _ hs' => ?_
    exact .pure ⟨hready _, v, rfl, hs'⟩
  match head with
  | .whileTest test | .doWhile test | .counted _ (some test) _ => exact hexpr test hl fun _ _ => trivial
  | .counted _ none _ =>
    refine (Loops.does [] (fun _ => [.boolean true]) hc ha hl
      (fun K' st hc' => does_true hc') hs).bind (k := fun _ => pure true) fun v W' s' _ hs' => ?_
    exact .pure ⟨fun _ => trivial, .boolean true, rfl, hs'⟩
  | .forIn target object =>
    obtain ⟨hi, hb⟩ := hl
    cases hb
    obtain ⟨s', hr, hs'⟩ := hasKey_reaches hc hi hs
    refine .reaches hr (.pure ⟨fun ht => ?_, _, rfl, hs'⟩) (Nat.le_add_left n 1)
    rintro rfl
    cases ht

theorem loopTest_sim {exit : Nat} (hM : M.Fits) (hc : Suits M K c act) (hh : HostSim M n h) (ha : Room K head k a)
    (hl : loopTestAt c head k exit a b) (hs : Loops M K head k keys a.pc [] W s) :
    Sim M n (loopTest h head act keys) W s
      (fun t W' s' => (t = true → Ready head keys) ∧ Loops M K head k keys (if t then b.pc else exit) [] W' s')
      (Fails M K) := by
  by_cases hnone : ∃ init update, head = .counted init none update
  · obtain ⟨init, update, rfl⟩ := hnone
    cases hl
    exact .pure ⟨fun _ => trivial, hs⟩
  · have hl : (loopConditionAt c head k ++ jump c .jumpIfFalse exit) a b := by
      match head with
      | .whileTest _ | .doWhile _ | .counted _ (some _) _ | .forIn .. => exact hl
      | .counted init none update => exact (hnone ⟨init, update, rfl⟩).elim
    obtain ⟨m, hC, hm, hi, hb⟩ := hl
    cases hb
    refine (loopCondition_sim hM hc hh ha hC hs).after fun t W' s' hs' => ?_
    obtain ⟨hready, v, rfl, hs'⟩ := hs'
    obtain ⟨s'', hr, hs''⟩ := hs'.jumpsWhen false hc (ha.mono hm) rfl hi
    refine ⟨1, s'', hr, hready, ?_⟩
    cases hv : v.toBoolean <;> rw [hv] at hs'' <;> exact hs''

theorem loopKey_sim (hM : M.Fits) (hc : Suits M K c act) (hh : HostSim M n h) (ha : Room K head k a)
    (hl : loopKeyAt c head k a b) (hready : Ready head keys) (hs : Loops M K head k keys a.pc [] W s) :
    Sim M n (loopKey h head act keys) W s (fun keys' => Loops M K head k keys' b.pc []) (Fails M K) := by
  match head, keys with
  | .whileTest _, _ | .doWhile _, _ | .counted .., _ =>
    cases hl
    exact .pure hs
  | .forIn _ _, [] => exact (hready rfl).elim
  | .forIn (.declare d) object, key :: keys =>
    obtain ⟨m, ⟨hi, hm⟩, hle, hC⟩ := hl
    have ha' := ha.mono hle
    cases hm
    obtain ⟨s', hr, hs'⟩ := nextKey_reaches hc ha.2.1 hi hs
    refine .reaches hr (.bind (Loops.does [.string key] (fun _ => []) hc ha' hC
      (fun K' st hc' => (does_store hc' d.id.name (.string key)).behind fun _ => does_pop hc' _) hs')
      fun _ W' s'' _ hs'' => .pure hs'') (Nat.le_add_left n 1)
  | .forIn (.assign e) object, key :: keys =>
    obtain ⟨m, ⟨hi, hm⟩, hle, hC⟩ := hl
    have ha' := ha.mono hle
    cases hm
    obtain ⟨s', hr, hs'⟩ := nextKey_reaches hc ha.2.1 hi hs
    refine .reaches hr (.bind (Loops.does [.string key] (fun _ => []) hc ha' hC
      (fun K' st hc' => (does_assignTop hc' (fun K'' hc'' => does_reference hc'' e (.inr ⟨hM, hh⟩)) st).behind
        fun _ => does_pop hc' _) hs')
      fun _ W' s'' _ hs'' => .pure hs'') (Nat.le_add_left n 1)

theorem loopUpdate_sim (hM : M.Fits) (hc : Suits M K c act) (hh : HostSim M n h) (ha : Room K head k a)
    (hl : loopUpdateAt c head a b) (hs : Loops M K head k keys a.pc [] W s) :
    Sim M n (loopUpdate h head act) W s (fun _ => Loops M K head k keys b.pc []) (Fails M K) := by
  match head with
  | .whileTest _ | .doWhile _ | .counted _ _ none | .forIn .. =>
    cases hl
    exact .pure hs
  | .counted _ _ (some update) =>
    exact (Loops.does [] (fun _ => []) hc ha hl
      (fun K' st hc' => (does_expr hM hc' hh update st).behind fun v => does_pop hc' v) hs).bind
      fun _ W' s' _ hs' => .pure hs'

/-! ## Rounds -/

/-- How the rounds of a loop end: a break of the loop has already gone to its end. -/
def LoopEnds (M : Mode) (K : Stage) (c : Setting) (labels : List String) (done : Nat) (exit : Exit) (W : World)
    (s : Step) : Prop :=
  if exit.refersTo .breaks labels .loop then ∃ st, Arrives M K done st W s else Ends M K c done exit W s

theorem Loops.ends (hs : Loops M K head k keys done [] W s) : LoopEnds M K c labels done .normal W s := by
  obtain ⟨st, r, f, rfl, hf, -⟩ := hs
  exact ⟨st, r, f, rfl, hf⟩

theorem Sim.breakLoop {x : Eval Exit} {E : Raised → World → Step → Prop}
    (hx : Sim M n x W s (LoopEnds M K c labels done) E) :
    Sim M n (Meaning.breakable labels .loop x) W s (Ends M K c done) E := by
  refine hx.bind fun exit W' s' _ hs => ?_
  rw [LoopEnds] at hs
  split at hs
  · rename_i hb
    rw [hb]
    exact .pure hs
  · rename_i hb
    rw [if_neg hb]
    exact .pure hs

theorem loopBody_sim (hp : PartDoes M n p x) (hc : Suits M K c act) (ha : Room K head k a)
    (hl : p (c.within (.breakable labels .loop done (some b.pc))) a b) (hs : Loops M K head k keys a.pc [] W s) :
    Sim M n (x act) W s (fun exit W' s' =>
      if exit.goesOn labels then Loops M K head k keys b.pc [] W' s' else LoopEnds M K c labels done exit W' s')
      (Fails M K) := by
  obtain ⟨K', st, r, f, hlater, hc', ht, rfl, hf, hback⟩ := hs.inner hc ha
  have hx := hp K' _ act (hc'.within (.breakable labels .loop done (some b.pc))) a b st (Nat.le_of_eq ht) hl r W f hf
  refine (hx.mono (fun _ _ _ hs => hs) fun e W' s' hs => hs.back hlater).after fun exit W' s' hs => ?_
  obtain ⟨hbreak, s'', st', hr, hs⟩ | ⟨hbreak, ⟨hcontinue, _, s'', st', hp, hr, hs⟩ | ⟨hcontinue, hs⟩⟩ := hs.leave hc'
  · have hstop : exit.goesOn labels = false := by
      match exit, hbreak with
      | .jumps .breaks label, _ => rfl
    refine ⟨1, s'', hr, ?_⟩
    rw [hstop, if_neg Bool.false_ne_true, LoopEnds, if_pos hbreak]
    exact ⟨st', hs.back hlater⟩
  · cases hp
    have hgo : exit.goesOn labels = true := by
      match exit, hcontinue with
      | .jumps _ label, hcontinue => exact hcontinue
    refine ⟨1, s'', hr, ?_⟩
    rw [if_pos hgo]
    obtain ⟨r', f', rfl, hf'⟩ := hs
    exact hback hf'
  · refine ⟨0, s', .refl, ?_⟩
    cases exit with
    | normal =>
      obtain ⟨st', r', f', rfl, hf'⟩ := hs
      exact hback hf'
    | jumps kind label =>
      have hstop : (Exit.jumps kind label).goesOn labels = false := hcontinue
      rw [hstop, if_neg Bool.false_ne_true, LoopEnds, hbreak, if_neg Bool.false_ne_true]
      exact Waits.back hlater hs
    | returns v => exact Ends.back hlater hs

theorem round_sim {m j : Nat} {u : Point} (hM : M.Fits) (hc : Suits M K c act) (hh : HostSim M n h)
    (hp : PartDoes M n p x) (ha : Room K head k a) (hround : roundAt c head k labels p done b.pc a b)
    (hb : a.temps ≤ b.temps) (hupdate : loopUpdateAt c head b u) (hready : Ready head keys) (hm : m ≤ n)
    (hrest : ∀ keys' W' s', Loops M K head k keys' u.pc [] W' s' →
      Sim M m (do
        if ← loopTest h head act keys' then evalRounds h head labels x act j keys'
        else return .normal) W' s' (LoopEnds M K c labels done) (Fails M K)) (hs : Loops M K head k keys a.pc [] W s) :
    Sim M m (evalRounds h head labels x act (j + 1) keys) W s (LoopEnds M K c labels done) (Fails M K) := by
  obtain ⟨m₁, hkey, hm₁, hbody⟩ := hround
  refine ((loopKey_sim hM hc hh ha hkey hready hs).le hm).bind fun keys' W₁ s₁ _ hs₁ => ?_
  refine ((loopBody_sim hp hc (ha.mono hm₁) hbody hs₁).le hm).bind fun exit W₂ s₂ _ hs₂ => ?_
  by_cases hgo : exit.goesOn labels
  · rw [if_pos hgo] at hs₂ ⊢
    exact ((loopUpdate_sim hM hc hh (ha.mono hb) hupdate hs₂).le hm).bind fun _ W₃ s₃ _ hs₃ => hrest keys' W₃ s₃ hs₃
  · rw [if_neg hgo] at hs₂ ⊢
    exact .pure hs₂

theorem rounds_sim {u : Point} (hM : M.Fits) (hc : Suits M K c act) (hh : HostSim M n h) (hp : PartDoes M n p x)
    (ha : Room K head k a) (hround : roundAt c head k labels p done b.pc a b) (hb : a.temps ≤ b.temps)
    (hupdate : loopUpdateAt c head b u)
    (htail : ∀ m keys W s (y : Eval Exit), Loops M K head k keys u.pc [] W s →
      (∀ W' s', Ready head keys → Loops M K head k keys a.pc [] W' s' →
        Sim M m y W' s' (LoopEnds M K c labels done) (Fails M K)) →
      Sim M (min n (m + 1)) (do if ← loopTest h head act keys then y else return .normal) W s
        (LoopEnds M K c labels done) (Fails M K)) :
    ∀ j keys W s, Ready head keys → Loops M K head k keys a.pc [] W s →
      Sim M (min n j) (evalRounds h head labels x act j keys) W s (LoopEnds M K c labels done) (Fails M K) := by
  intro j
  induction j with
  | zero =>
    intro keys W s _ _
    rw [Nat.min_zero]
    exact .zero
  | succ j ih =>
    intro keys W s hready hs
    refine round_sim hM hc hh hp ha hround hb hupdate hready (Nat.min_le_left _ _) (fun keys' W' s' hs' => ?_) hs
    refine (htail (min n j) keys' W' s' _ hs' fun W'' s'' => ih keys' W'' s'').le ?_
    omega

/-! ## Loops -/

theorem tail_sim {y : Eval Exit} {m : Nat} (hM : M.Fits) (hc : Suits M K c act) (hh : HostSim M n h)
    (ha : Room K head k a) (hl : loopTestAt c head k done a b) (hm : m ≤ n) (hs : Loops M K head k keys a.pc [] W s)
    (hy : ∀ W' s', Ready head keys → Loops M K head k keys b.pc [] W' s' →
      Sim M m y W' s' (LoopEnds M K c labels done) (Fails M K)) :
    Sim M m (do if ← loopTest h head act keys then y else return .normal) W s (LoopEnds M K c labels done) (Fails M K) := by
  refine ((loopTest_sim hM hc hh ha hl hs).le hm).bind fun t W' s' _ hs' => ?_
  cases t with
  | true => exact hy W' s' (hs'.1 rfl) hs'.2
  | false => exact .pure hs'.2.ends

theorem entry_sim {y : Eval Exit} (hM : M.Fits) (hc : Suits M K c act) (hh : HostSim M n h) (ha : Room K head k a)
    (hl : (if testsLast head then Code.nil else loopTestAt c head k done) a b) (hs : Loops M K head k keys a.pc [] W s)
    (hy : ∀ W' s', Ready head keys → Loops M K head k keys b.pc [] W' s' →
      Sim M n y W' s' (LoopEnds M K c labels done) (Fails M K)) :
    Sim M n (do
      let first ← if testsLast head then pure true else loopTest h head act keys
      if first then breakable labels .loop y else return .normal) W s (Ends M K c done) (Fails M K) := by
  cases hlast : testsLast head with
  | true =>
    rw [hlast, if_pos rfl] at hl
    cases hl
    have hready : Ready head keys := by
      match head, hlast with
      | .doWhile test, _ => trivial
    exact .breakLoop (hy W s hready hs)
  | false =>
    rw [hlast, if_neg Bool.false_ne_true] at hl
    refine (loopTest_sim hM hc hh ha hl hs).bind fun t W' s' _ hs' => ?_
    cases t with
    | true => exact .breakLoop (hy W' s' (hs'.1 rfl) hs'.2)
    | false =>
      obtain ⟨-, st, r, f, rfl, hf, -⟩ := hs'
      exact .pure ⟨st, r, f, rfl, hf⟩

theorem simpleLoop_sim (hM : M.Fits) (hc : Suits M K c act) (hh : HostSim M n h) (hp : PartDoes M n p x)
    (ha : Room K head k a) (hl : simpleLoopAt c head k labels p a b) (hs : Loops M K head k keys a.pc [] W s) :
    Sim M n (do
      let first ← if testsLast head then pure true else loopTest h head act keys
      if first then breakable labels .loop (evalRounds h head labels x act h.rounds keys)
      else return .normal) W s (Ends M K c b.pc) (Fails M K) := by
  obtain ⟨top, start, next, done, m₁, ⟨rfl, rfl⟩, -, m₂, htest, h₂, m₃, ⟨rfl, rfl⟩, -, m₄, hround, h₄, m₅, ⟨rfl, rfl⟩, -,
    m₆, hupdate, h₆, m₇, hback, h₇, rfl, rfl⟩ := hl
  have ha₂ := ha.mono h₂
  refine entry_sim hM hc hh ha htest hs fun W' s' hready hs' => ?_
  have hrounds := rounds_sim hM hc hh hp ha₂ hround h₄ hupdate ?_ h.rounds keys W' s' hready hs'
  · exact hrounds.le (by rw [hh.rounds]; omega)
  intro m keys W s y hs hy
  have ha₆ := (ha₂.mono h₄).mono h₆
  cases hlast : testsLast head with
  | true =>
    rw [hlast, if_pos rfl] at hback
    obtain ⟨m₈, hcondition, h₈, hi, hb⟩ := hback
    cases hb
    refine ((loopCondition_sim hM hc hh ha₆ hcondition hs).le (Nat.min_le_left _ _)).bind fun t W' s' _ hs' => ?_
    obtain ⟨hready, v, rfl, hs'⟩ := hs'
    obtain ⟨s'', hr, hs''⟩ := hs'.jumpsWhen true hc (ha₆.mono h₈) rfl hi
    cases hv : v.toBoolean with
    | true =>
      rw [hv] at hs''
      exact .reaches hr (hy W' s'' (hready hv) hs'') (by omega)
    | false =>
      rw [hv] at hs''
      exact .reaches hr (.pure hs''.ends) (Nat.le_add_left _ 1)
  | false =>
    rw [hlast, if_neg Bool.false_ne_true] at hback htest
    obtain ⟨hi, hb⟩ := hback
    cases hb
    obtain ⟨s', hr, hs'⟩ := hs.jumps hc ha₆ hi
    refine .reaches hr (tail_sim hM hc hh ha htest (Nat.min_le_left n m) hs' fun W'' s'' hready hs'' =>
      (hy W'' s'' hready hs'').le (Nat.min_le_right n m)) ?_
    omega

theorem rotatedLoop_sim (hM : M.Fits) (hc : Suits M K c act) (hh : HostSim M n h) (hp : PartDoes M n p x)
    (ha : Room K head k a) (hl : rotatedLoopAt c head k labels p a b) (hs : Loops M K head k keys a.pc [] W s) :
    Sim M n (do
      let first ← if testsLast head then pure true else loopTest h head act keys
      if first then breakable labels .loop (evalRounds h head labels x act h.rounds keys)
      else return .normal) W s (Ends M K c b.pc) (Fails M K) := by
  obtain ⟨done, firstContinue, m₁, hfirst, h₁, m₂, hround₁, h₂, m₃, ⟨rfl, rfl⟩, -, m₄, hupdate₁, h₄, top, laterDone,
    laterContinue, m₅, ⟨rfl, rfl⟩, -, m₆, htest, h₆, m₇, hround, h₇, m₈, ⟨rfl, rfl⟩, -, m₉, hupdate, h₉, m₁₀,
    ⟨hi, hm₁₀⟩, -, m₁₁, ⟨rfl, rfl⟩, -, rfl, rfl⟩ := hl
  have ha₁ := ha.mono h₁
  have ha₄ := (ha₁.mono h₂).mono h₄
  have ha₆ := ha₄.mono h₆
  refine entry_sim hM hc hh ha hfirst hs fun W' s' hready hs' => ?_
  rw [hh.rounds]
  -- the first round has code of its own; the rounds behind it come back to the second test
  refine round_sim hM hc hh hp ha₁ hround₁ h₂ hupdate₁ hready (Nat.le_refl n) (fun keys' W'' s'' hs'' => ?_) hs'
  refine tail_sim hM hc hh ha₄ htest (Nat.le_refl n) hs'' fun W₃ s₃ hready₃ hs₃ => ?_
  have hrounds := rounds_sim hM hc hh hp ha₆ hround h₇ hupdate ?_ n keys' W₃ s₃ hready₃ hs₃
  · exact hrounds.le (by omega)
  intro m keys W s y hs hy
  obtain ⟨s', hr, hs'⟩ := hs.jumps hc ((ha₆.mono h₇).mono h₉) hi
  refine .reaches hr (tail_sim hM hc hh ha₄ htest (Nat.min_le_left n m) hs' fun W'' s'' hready hs'' =>
    (hy W'' s'' hready hs'').le (Nat.min_le_right n m)) ?_
  omega

theorem does_loop (hM : M.Fits) (hc : Suits M K c act) (hh : HostSim M n h) (head : LoopHead) (labels : List String)
    (hp : PartDoes M n p x) :
    StmtDoes M n K c (loopAt c head labels p) (evalLoop h head labels x act) := by
  intro a b st ha hl r W f hf
  have hloop : ∀ {k a}, Room K head k a → At M K a.pc st r W f →
      (loopInitAt c head k ++ if c.options.loopRotation then rotatedLoopAt c head k labels p
        else simpleLoopAt c head k labels p) a b →
      Sim M n (evalLoop h head labels x act) W (.run ⟨r, f, K.callers⟩) (Ends M K c b.pc) (Fails M K) := by
    rintro k a ha hf ⟨m, hinit, hm, hl⟩
    refine (loopInit_sim hM hc hh ha hinit hf).bind fun keys W' s' _ hs' => ?_
    split at hl
    · exact rotatedLoop_sim hM hc hh hp (ha.mono hm) hl hs'
    · exact simpleLoop_sim hM hc hh hp (ha.mono hm) hl hs'
  match head with
  | .forIn target object =>
    exact hloop (a := ⟨a.pc, a.temps + 1⟩) ⟨Nat.le_succ_of_le ha, ha, Nat.lt_succ_self _⟩ hf hl
  | .whileTest _ | .doWhile _ | .counted _ _ _ => exact hloop ⟨ha, trivial⟩ hf hl

end

end ScriptEngine
