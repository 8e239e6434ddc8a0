/-
Statements and the ways they end. The code of a statement that ends with a jump
or a return stands where the rest of the way out is laid out: the constructs
around it are still to be left, one after another. Main definitions: `Ends` and
`StmtDoes`; main statements: what leaving a labelled construct comes to.
-/
import ScriptEngine.Proofs.Simulation.Expression

namespace ScriptEngine

open Meaning Layout
open Lowering (JumpKind BreakableKind)

/-! ## Ways to end -/

def Leaves (M : Mode) (K : Stage) (v : Value) (W : World) (s : Step) : Prop :=
  ∃ r f st, s = .run ⟨r, f, K.callers⟩ ∧ f.code = K.frame.code ∧ f.purpose = K.frame.purpose ∧
    K.frame.code.instructions[f.position]? = some ⟨.ret, none⟩ ∧ f.stack = v :: st ∧ Rel M r W ∧
    K.store.KeepsRecords r.store

/-- The frame stands where some code is laid out, while a temporary may hold a value for it. -/
def Waits (M : Mode) (K : Stage) (C : Code) (kept : Option (Nat × Value)) (W : World) (s : Step) : Prop :=
  ∃ q q' st r f, C q q' ∧ K.taken ≤ q.temps ∧ s = .run ⟨r, f, K.callers⟩ ∧ At M K q.pc st r W f ∧
    ∀ t v, kept = some (t, v) → K.taken ≤ t ∧ t < q.temps ∧ f.temporary t = v

/-- How the code of a statement ends when nothing is raised: behind it, or on the way out of the
constructs around it. -/
def Ends (M : Mode) (K : Stage) (c : Setting) (b : Nat) (exit : Exit) (W : World) (s : Step) : Prop :=
  match exit with
  | .normal => ∃ st, Arrives M K b st W s
  | .jumps kind label => Waits M K (jumpAt c kind label c.regions) none W s
  | .returns v => (c.regions.any Region.isFinalized = false ∧ Leaves M K v W s) ∨
      ∃ t, Waits M K (returnAt c t c.regions) (some (t, v)) W s

/-- The code of a statement does what the statement does. -/
def StmtDoes (M : Mode) (n : Nat) (K : Stage) (c : Setting) (C : Code) (x : Eval Exit) : Prop :=
  ∀ a b st, K.taken ≤ a.temps → C a b → ∀ r W f, At M K a.pc st r W f →
    Sim M n x W (.run ⟨r, f, K.callers⟩) (Ends M K c b.pc) (Fails M K)

def PartDoes (M : Mode) (n : Nat) (p : Part) (x : Act) : Prop :=
  ∀ K c act, Suits M K c act → StmtDoes M n K c (p c) (x act)

section

variable {M : Mode} {n : Nat} {h : Host} {K : Stage} {c : Setting} {act : Activation} {C D : Code} {x y : Eval Exit}

theorem jumpAt_unit {c c' : Setting} (hu : c'.unit = c.unit) (kind : JumpKind) (label : Option String) :
    ∀ rs, jumpAt c' kind label rs = jumpAt c kind label rs
  | [] => rfl
  | .breakable labels k breakTo continueTo :: outer => by
    simp only [jumpAt, jumpAt_unit hu kind label outer, jump, emitWith, hu]
  | .scope :: outer => by simp only [jumpAt, jumpAt_unit hu kind label outer, emit, hu]
  | .attempt finalizer :: outer => by simp only [jumpAt, jumpAt_unit hu kind label outer, emit, hu]

theorem returnAt_unit {c c' : Setting} (hu : c'.unit = c.unit) (t : Nat) :
    ∀ rs, returnAt c' t rs = returnAt c t rs
  | [] => by simp only [returnAt, emit, emitWith, hu]
  | .breakable _ _ _ _ :: outer => by simp only [returnAt, returnAt_unit hu t outer]
  | .scope :: outer => by simp only [returnAt, returnAt_unit hu t outer, emit, hu]
  | .attempt finalizer :: outer => by simp only [returnAt, returnAt_unit hu t outer, emit, hu]

theorem jumpAt_within (region : Region) (kind : JumpKind) (label : Option String) (rs : List Region) :
    jumpAt (c.within region) kind label rs = jumpAt c kind label rs :=
  jumpAt_unit (by rfl) kind label rs

theorem returnAt_within (region : Region) (t : Nat) (rs : List Region) :
    returnAt (c.within region) t rs = returnAt c t rs :=
  returnAt_unit (by rfl) t rs

theorem Suits.within (hc : Suits M K c act) (region : Region) : Suits M K (c.within region) act :=
  ⟨hc.unit, hc.options, hc.strict, hc.unit_strict, hc.completion, hc.keepsValue, hc.scope, hc.chain, hc.receiver,
    hc.found, hc.taken⟩

/-! ## Stages that leave more alone -/

theorem Leaves.outer {K' : Stage} {v W s} (hw : K.Within K') (h : Leaves M K' v W s) : Leaves M K v W s := by
  obtain ⟨r, f, st, rfl, hcode, hpurpose, hi, hst, hrel, hrecords⟩ := h
  exact ⟨r, f, st, by rw [hw.callers], hcode.trans hw.code, hpurpose.trans hw.purpose, by rw [← hw.code]; exact hi, hst,
    hrel, hw.records.trans hrecords⟩

theorem Waits.back {K' : Stage} {kept W s} (hl : K.Later K') (h : Waits M K' C kept W s) : Waits M K C kept W s := by
  obtain ⟨q, q', st, r, f, hC, hq, rfl, hf, hkept⟩ := h
  refine ⟨q, q', st, r, f, hC, Nat.le_trans hl.taken hq, by rw [hl.callers], hf.back hl, fun t v ht => ?_⟩
  obtain ⟨hle, hlt, hv⟩ := hkept t v ht
  exact ⟨Nat.le_trans hl.taken hle, hlt, hv⟩

theorem Ends.back {K' : Stage} {b exit W s} (hl : K.Later K') (h : Ends M K' c b exit W s) : Ends M K c b exit W s := by
  cases exit with
  | normal =>
    obtain ⟨st, hs⟩ := h
    exact ⟨st, hs.back hl⟩
  | jumps kind label => exact Waits.back hl h
  | returns v =>
    obtain ⟨hfin, hs⟩ | ⟨t, hs⟩ := h
    · exact .inl ⟨hfin, hs.outer hl.toWithin⟩
    · exact .inr ⟨t, hs.back hl⟩

/-! ## Statements one after another -/

theorem StmtDoes.of_does {x : Eval Unit} (hx : ∀ st, Does M n K C x st fun _ => st) :
    StmtDoes M n K c C (do
      x
      return .normal) :=
  fun a b st ha hC r W f hf => (hx st a b ha hC r W f hf).bind fun _ _ _ _ hs => .pure ⟨st, hs⟩

theorem StmtDoes.nil : StmtDoes M n K c .nil (pure .normal) := by
  intro a b st _ hC r W f hf
  cases hC
  exact .pure ⟨st, r, f, rfl, hf⟩

theorem Sim.andThen {W : World} {s : Step} {m b : Nat} (hx : Sim M n x W s (Ends M K c m) (Fails M K))
    (hy : ∀ st r W' f, At M K m st r W' f →
      Sim M n y W' (.run ⟨r, f, K.callers⟩) (Ends M K c b) (Fails M K)) :
    Sim M n (andThen x y) W s (Ends M K c b) (Fails M K) := by
  refine hx.bind fun exit W' s' _ hs => ?_
  cases exit with
  | normal =>
    obtain ⟨st, r', f', rfl, hf'⟩ := hs
    exact hy st r' W' f' hf'
  | jumps kind label => exact .pure hs
  | returns v => exact .pure hs

theorem StmtDoes.andThen (hx : StmtDoes M n K c C x) (hy : StmtDoes M n K c D y) :
    StmtDoes M n K c (C ++ D) (Meaning.andThen x y) := by
  intro a b st ha ⟨m, hC, hm, hD⟩ r W f hf
  exact (hx a m st ha hC r W f hf).andThen fun st' r' W' f' hf' => hy m b st' (Nat.le_trans ha hm) hD r' W' f' hf'

theorem StmtDoes.seq {x : Eval Value} {k : Value → Eval Exit} (hx : Pushes M n K C x)
    (hk : ∀ v a b st, K.taken ≤ a.temps → D a b → ∀ r W f, At M K a.pc (v :: st) r W f →
      Sim M n (k v) W (.run ⟨r, f, K.callers⟩) (Ends M K c b.pc) (Fails M K)) :
    StmtDoes M n K c (C ++ D) (x >>= k) := by
  intro a b st ha ⟨m, hC, hm, hD⟩ r W f hf
  refine (hx st a m ha hC r W f hf).bind fun v W' s _ hs => ?_
  obtain ⟨r', f', rfl, hf'⟩ := hs
  exact hk v m b st (Nat.le_trans ha hm) hD r' W' f' hf'

/-! ## Simple statements -/

theorem does_declarators (hM : M.Fits) (hc : Suits M K c act) (hh : HostSim M n h) :
    ∀ (ds : List Declarator) (st : List Value),
      Does M n K (declaratorsAt c ds) (evalDeclarators h act ds) st fun _ => st
  | [], _ => .nil
  | ⟨_, none⟩ :: ds, st => does_declarators hM hc hh ds st
  | ⟨id, some init⟩ :: ds, st =>
    (does_expr hM hc hh init st).seq fun v => (does_store hc id.name v).seq fun _ =>
      .skip (does_pop hc v) (does_declarators hM hc hh ds st)

theorem On.setCompletion {r W f} {t : Nat} (h : On M K r W f) (ht : K.completion = some t) (v : Value) :
    On M K r { W with value := v } (f.setTemporary t v) where
  rel := h.rel.value v
  records := h.records
  code := h.code
  receiver := h.receiver
  purpose := h.purpose
  handlers := h.handlers
  temporaries t' hlt hne := by
    rw [Frame.temporary_setTemporary, if_neg (fun he => hne (by rw [he]; exact ht)), h.temporaries t' hlt hne]
  keys := h.keys
  value t' ht' := by
    rw [ht] at ht'
    cases ht'
    rw [Frame.temporary_setTemporary, if_pos rfl]

theorem does_evaluation (hM : M.Fits) (hc : Suits M K c act) (hh : HostSim M n h) (e : Expr) :
    StmtDoes M n K c (evaluationAt c e) (evalEvaluation h e act) := by
  refine .seq (does_expr hM hc hh e) fun v a b st ha hD r W f hf => ?_
  cases hcompletion : c.completion with
  | none =>
    rw [hc.keepsValue, hcompletion]
    rw [hcompletion] at hD
    have hs : Sim M n (pure () >>= fun _ => (pure .normal : Eval Exit)) W (.run ⟨r, f, K.callers⟩) (Ends M K c b.pc)
        (Fails M K) := (does_pop hc v a b ha hD r W f hf).bind fun _ _ _ _ hs => .pure ⟨st, hs⟩
    exact hs
  | some t =>
    rw [hc.keepsValue, hcompletion]
    rw [hcompletion] at hD
    obtain ⟨hi, hb⟩ := hD
    cases hb
    have hf' : At M K (a.pc + 1) st r { W with value := v } ((f.past (st ++ K.frame.stack)).setTemporary t v) :=
      ⟨(hf.past st).toOn.setCompletion (hc.completion.trans hcompletion) v, (hf.past st).position, rfl, hf.scope⟩
    exact .reaches (hf.storeLocal hc hi) (.ok rfl ⟨st, r, _, rfl, hf'⟩) (Nat.le_add_left n 1)

theorem does_throw (hM : M.Fits) (hc : Suits M K c act) (hh : HostSim M n h) (e : Expr) :
    StmtDoes M n K c (exprAt c e ++ emit c .throwValue) (evalThrow h e act) := by
  refine .seq (does_expr hM hc hh e) fun v a b st _ hD r W f hf => ?_
  obtain ⟨hi, hb⟩ := hD
  rw [← hc.unit] at hi
  have hx : Instruction.exec ⟨.throwValue, none⟩ ⟨r, f.past f.stack⟩ =
      .error (.thrown v) ⟨r, f.past (st ++ K.frame.stack)⟩ := by
    rw [hf.stack]
    rfl
  exact .reaches (hf.raises hi (hf.agrees hi rfl) hx trivial)
    (.error rfl ⟨r, _, st, rfl, (hf.past st).toOn, rfl, trivial⟩) (Nat.le_add_left n 1)

theorem does_jump (kind : JumpKind) (label : Option String) :
    StmtDoes M n K c (jumpAt c kind label c.regions) (pure (.jumps kind label)) :=
  fun a b st ha hC r _ f hf => .pure ⟨a, b, st, r, f, hC, ha, rfl, hf, nofun⟩

theorem returnTop_sim (hc : Suits M K c act) {a b : Point} {v : Value} {st : List Value} {r W f}
    (ha : K.taken ≤ a.temps) (hl : returnTopAt c a b) (hf : At M K a.pc (v :: st) r W f) :
    Sim M n (pure (.returns v)) W (.run ⟨r, f, K.callers⟩) (Ends M K c b.pc) (Fails M K) := by
  rw [returnTopAt] at hl
  split at hl
  · obtain ⟨m, ⟨hi, hm⟩, -, hl⟩ := hl
    cases hm
    refine .reaches (hf.storeLocal hc hi) (.pure (.inr ⟨a.temps, _, b, st, r, _, hl, Nat.le_succ_of_le ha, rfl,
      hf.stored hc ha, ?_⟩)) (Nat.le_add_left n 1)
    rintro t w ⟨⟩
    exact ⟨ha, Nat.lt_succ_self _, (Frame.temporary_setTemporary _ _ _ _).trans (if_pos rfl)⟩
  · rename_i hfin
    refine .pure (.inl ⟨by simpa using hfin, r, f, st ++ K.frame.stack, rfl, hf.code, hf.purpose, ?_, hf.stack, hf.rel,
      hf.records⟩)
    rw [hf.position, hc.unit]
    exact hl.1

theorem does_return (hM : M.Fits) (hc : Suits M K c act) (hh : HostSim M n h) (value : Option Expr) :
    StmtDoes M n K c (returnStmtAt c value) (evalReturn h value act) := by
  cases value with
  | some e =>
    exact .seq (does_expr hM hc hh e) fun v a b st ha hl r W f hf => returnTop_sim hc ha hl hf
  | none =>
    have hu : Pushes M n K (emit c .loadUndefined) (pure .undefined) := fun _ => .returns (does_undefined hc)
    exact .seq (k := fun v => pure (.returns v)) hu fun v a b st ha hl r W f hf => returnTop_sim hc ha hl hf

/-! ## Branches -/

theorem Sim.jumps {W : World} {s : Step} {m b : Nat} (hc : Suits M K c act)
    (hx : Sim M n x W s (Ends M K c m) (Fails M K))
    (hi : c.unit.instructions[m]? = some ⟨.jump, some (.target b)⟩) : Sim M n x W s (Ends M K c b) (Fails M K) := by
  refine hx.after fun exit W' s' hs => ?_
  cases exit with
  | normal =>
    obtain ⟨st, r, f, rfl, hf⟩ := hs
    obtain ⟨f', hr, hf'⟩ := hf.jumps hc hi
    exact ⟨1, _, hr, st, r, f', rfl, hf'⟩
  | jumps kind label => exact ⟨0, s', .refl, hs⟩
  | returns v => exact ⟨0, s', .refl, hs⟩

def OptionDoes (M : Mode) (n : Nat) : Option Part → Option Act → Prop
  | some q, some y => PartDoes M n q y
  | none, none => True
  | _, _ => False

theorem does_branch (hM : M.Fits) (hc : Suits M K c act) (hh : HostSim M n h) (test : Expr) {p : Part} {x : Act}
    (hp : PartDoes M n p x) {q : Option Part} {y : Option Act} (hq : OptionDoes M n q y) :
    StmtDoes M n K c (branchAt c test p q) (evalBranch h test x y act) := by
  intro a b st ha ⟨otherwise, m₁, htest, h₁, m₂, ⟨hi, hm₂⟩, h₂, m₃, hthen, h₃, hrest⟩ r W f hf
  cases hm₂
  have ha₂ := Nat.le_trans ha (Nat.le_trans h₁ h₂)
  refine (does_expr hM hc hh test st a m₁ ha htest r W f hf).bind fun v W' s _ hs => ?_
  obtain ⟨r', f', rfl, hf'⟩ := hs
  obtain ⟨f'', hr, hf''⟩ := hf'.jumpsWhen false hc rfl hi
  refine .reaches hr ?_ (Nat.le_add_left n 1)
  cases hv : v.toBoolean with
  | true =>
    rw [hv] at hf''
    have hx := hp K c act hc _ m₃ st ha₂ hthen r' W' f'' hf''
    match q, y, hq with
    | none, none, _ =>
      obtain ⟨rfl, -⟩ := hrest
      exact hx
    | some q, some y, _ =>
      obtain ⟨done, m₄, ⟨hj, hm₄⟩, -, m₅, ⟨rfl, -⟩, -, m₆, -, -, rfl, rfl⟩ := hrest
      exact hx.jumps hc hj
  | false =>
    rw [hv] at hf''
    match q, y, hq with
    | none, none, _ =>
      obtain ⟨rfl, rfl⟩ := hrest
      exact .pure ⟨st, r', f'', rfl, hf''⟩
    | some q, some y, hq =>
      obtain ⟨done, m₄, ⟨hj, hm₄⟩, h₄, m₅, ⟨rfl, rfl⟩, h₅, m₆, hy, -, rfl, rfl⟩ := hrest
      exact hq K c act hc _ _ st (Nat.le_trans ha₂ (Nat.le_trans h₃ h₄)) hy r' W' f'' hf''

/-! ## Breaks -/

theorem Ends.leave {labels : List String} {kind : BreakableKind} {breakTo b : Nat} {continueTo : Option Nat}
    {exit W s} (hc : Suits M K c act)
    (h : Ends M K (c.within (.breakable labels kind breakTo continueTo)) b exit W s) :
    (exit.refersTo .breaks labels kind = true ∧ ∃ s' st, Reaches 1 s s' ∧ Arrives M K breakTo st W s') ∨
    exit.refersTo .breaks labels kind = false ∧
      ((exit.refersTo .continues labels kind = true ∧
        ∃ p s' st, continueTo = some p ∧ Reaches 1 s s' ∧ Arrives M K p st W s') ∨
      exit.refersTo .continues labels kind = false ∧ Ends M K c b exit W s) := by
  cases exit with
  | normal => exact .inr ⟨rfl, .inr ⟨rfl, h⟩⟩
  | returns v =>
    refine .inr ⟨rfl, .inr ⟨rfl, ?_⟩⟩
    obtain ⟨hfin, hs⟩ | ⟨t, hs⟩ := h
    · exact .inl ⟨hfin, hs⟩
    · rw [returnAt_within] at hs
      exact .inr ⟨t, hs⟩
  | jumps j label =>
    obtain ⟨q, q', st, r, f, hC, hq, rfl, hf, -⟩ := h
    rw [jumpAt_within] at hC
    simp only [Setting.within, jumpAt] at hC
    cases hr : j.refersTo label labels kind with
    | false =>
      rw [hr, if_neg Bool.false_ne_true] at hC
      have hno : ∀ k, (Exit.jumps j label).refersTo k labels kind = false := by
        intro k
        cases hj : j == k with
        | false => simp only [Exit.refersTo, hj, Bool.false_and]
        | true => simp only [Exit.refersTo, hj, Bool.true_and]; rw [← eq_of_beq hj]; exact hr
      exact .inr ⟨hno _, .inr ⟨hno _, q, q', st, r, f, hC, hq, rfl, hf, fun _ _ h => by cases h⟩⟩
    | true =>
      rw [hr, if_pos rfl] at hC
      cases j with
      | breaks =>
        obtain ⟨f', hr', hf'⟩ := hf.jumps hc hC.1
        exact .inl ⟨hr, _, st, hr', r, f', rfl, hf'⟩
      | continues =>
        cases continueTo with
        | none => exact hC.elim
        | some p =>
          obtain ⟨f', hr', hf'⟩ := hf.jumps hc hC.1
          exact .inr ⟨rfl, .inl ⟨hr, p, _, st, rfl, hr', r, f', rfl, hf'⟩⟩

theorem Sim.breakable {W : World} {s : Step} {labels : List String} {kind : BreakableKind} {b : Nat}
    {E : Raised → World → Step → Prop} (hc : Suits M K c act)
    (hx : Sim M n x W s (Ends M K (c.within (.breakable labels kind b none)) b) E) :
    Sim M n (Meaning.breakable labels kind x) W s (Ends M K c b) E := by
  refine hx.bind fun exit W' s' _ hs => ?_
  obtain ⟨hb, s'', st, hr, hs⟩ | ⟨hb, ⟨-, p, -, -, hp, -⟩ | ⟨-, hs⟩⟩ := hs.leave hc
  · rw [hb]
    exact .reaches hr (.pure ⟨st, hs⟩) (Nat.le_add_left n 1)
  · cases hp
  · rw [hb]
    exact .pure hs

theorem breakable_nil (x : Eval Exit) : Meaning.breakable [] .labelled x = x := by
  have h : ∀ exit : Exit, exit.refersTo .breaks [] .labelled = false := by
    intro exit
    cases exit with
    | jumps j label => cases label <;> cases j <;> rfl
    | _ => rfl
  simp only [Meaning.breakable, h]
  exact bind_pure x

theorem does_labelled (hc : Suits M K c act) (labels : List String) {p : Part} {x : Act} (hp : PartDoes M n p x) :
    StmtDoes M n K c (labelledAt c labels p) (Meaning.breakable labels .labelled (x act)) := by
  intro a b st ha hl r W f hf
  cases labels with
  | nil =>
    rw [breakable_nil]
    exact hp K c act hc a b st ha hl r W f hf
  | cons l ls =>
    obtain ⟨exit, m, hC, -, rfl, rfl⟩ := hl
    exact (hp K _ act (hc.within _) a m st ha hC r W f hf).breakable hc

end

end ScriptEngine
