/-
Lowering a well-formed program fails only for a fault in the program: statements
leave the stack as they found it, every label that is jumped to is placed, and functions
never nest deeper than was counted. A finalizer is written out more than once,
and one of its copies stands above a value more; its jumps out of the statement
are harmless there, since an earlier copy has fixed the heights of their labels.
Main statement: `lowerProgram_ofProgram`.
-/
import ScriptEngine.Proofs.Lowering.Balance

namespace ScriptEngine.Lowering

/-! ## Ways out of a statement -/

inductive Way
  | jump (kind : JumpKind) (label : Option String)
  | leave

/-- What stands around a statement. An attempt comes with the labels that its finalizer
jumps to. -/
inductive Shape
  | breakable (labels : List String) (kind : BreakableKind) (breakTo : Label) (continueTo : Option Label)
  | attempt (final : Label → Prop)
  | scope

namespace Way

/-- The way out ends at a construct with these labels and of this kind. -/
def refersTo (labels : List String) (kind : BreakableKind) : Way → Prop
  | .jump k label => k.refersTo label labels kind = true
  | .leave => False

/-- The label of such a construct that the way leads to. -/
def lands (breakTo : Label) (continueTo : Option Label) (l : Label) : Way → Prop
  | .jump .breaks _ => l = breakTo
  | .jump .continues _ => continueTo = some l
  | .leave => False

/-- The labels that the code of the way jumps to, those of the finalizers on it included. -/
def reaches (w : Way) : List Shape → Label → Prop
  | [], _ => False
  | .scope :: ss, l => w.reaches ss l
  | .attempt final :: ss, l => final l ∨ w.reaches ss l
  | .breakable labels kind breakTo continueTo :: ss, l =>
    w.refersTo labels kind ∧ w.lands breakTo continueTo l ∨ ¬ w.refersTo labels kind ∧ w.reaches ss l

end Way

def targets (F : Way → Prop) (ss : List Shape) (l : Label) : Prop := ∃ w, F w ∧ w.reaches ss l

def outside (F : Way → Prop) (labels : List String) (kind : BreakableKind) (w : Way) : Prop :=
  F w ∧ ¬ w.refersTo labels kind

theorem targets_breakable {F : Way → Prop} {labels kind b c ss l}
    (h : targets F (.breakable labels kind b c :: ss) l) :
    l = b ∨ c = some l ∨ targets (outside F labels kind) ss l := by
  obtain ⟨w, hw, ⟨-, hl⟩ | ⟨hn, hl⟩⟩ := h
  · match w, hl with
    | .jump .breaks _, hl => exact .inl hl
    | .jump .continues _, hl => exact .inr (.inl hl)
  · exact .inr (.inr ⟨w, ⟨hw, hn⟩, hl⟩)

theorem targets_outside {F : Way → Prop} {labels kind b c ss l} (h : targets (outside F labels kind) ss l) :
    targets F (.breakable labels kind b c :: ss) l := by
  obtain ⟨w, ⟨hw, hn⟩, hl⟩ := h
  exact ⟨w, hw, .inr ⟨hn, hl⟩⟩

theorem targets_attempt {F : Way → Prop} {T ss l} (h : targets F (.attempt T :: ss) l) : T l ∨ targets F ss l := by
  obtain ⟨w, hw, hl | hl⟩ := h
  · exact .inl hl
  · exact .inr ⟨w, hw, hl⟩

theorem targets_within {F : Way → Prop} {T ss l} (h : targets F ss l) : targets F (.attempt T :: ss) l := by
  obtain ⟨w, hw, hl⟩ := h
  exact ⟨w, hw, .inr hl⟩

theorem targets_or {F G : Way → Prop} {ss l} : targets (fun w => F w ∨ G w) ss l ↔ targets F ss l ∨ targets G ss l := by
  constructor
  · rintro ⟨w, hw | hw, hl⟩
    · exact .inl ⟨w, hw, hl⟩
    · exact .inr ⟨w, hw, hl⟩
  · rintro (⟨w, hw, hl⟩ | ⟨w, hw, hl⟩)
    · exact ⟨w, .inl hw, hl⟩
    · exact ⟨w, .inr hw, hl⟩

/-- Jumps to these labels are sound at a height: it is the one meant for the label, or that
is known already. -/
def Sound (D : Aims) (K : Label → Prop) (d : Int) (T : Label → Prop) : Prop :=
  ∀ l, T l → D l = some d ∨ (D l).isSome ∧ K l

namespace Sound

variable {D : Aims} {K K' : Label → Prop} {d : Int} {T T' : Label → Prop}

theorem imp (h : Sound D K d T) (hT : ∀ l, T' l → T l) : Sound D K d T' := fun l hl => h l (hT l hl)

theorem learn (h : Sound D K d T) (hK : ∀ l, K l → K' l) : Sound D K' d T := fun l hl =>
  (h l hl).imp_right fun hk => ⟨hk.1, hK l hk.2⟩

theorem left {F G : Way → Prop} {ss : List Shape} (h : Sound D K d (targets (fun w => F w ∨ G w) ss)) :
    Sound D K d (targets F ss) := h.imp fun _ h => targets_or.2 (.inl h)

theorem right {F G : Way → Prop} {ss : List Shape} (h : Sound D K d (targets (fun w => F w ∨ G w) ss)) :
    Sound D K d (targets G ss) := h.imp fun _ h => targets_or.2 (.inr h)

theorem add (h : Sound D K d T) (l : Label) : Sound (D.add l d) K d T := by
  intro l' hl'
  by_cases hll : l' = l
  · exact .inl (by rw [hll, Aims.add_self])
  · rw [Aims.add_ne D d hll]
    exact h l' hl'

theorem add_new (h : Sound D K d T) {l : Label} (hl : D l = none) (e : Int) : Sound (D.add l e) K d T := by
  intro l' hl'
  have hll : l' ≠ l := by
    rintro rfl
    simpa [hl] using h l' hl'
  rw [Aims.add_ne D e hll]
  exact h l' hl'

end Sound

/-- A piece of code leaves the stack as it found it, jumps to the labels `T` only, and to
all of them. -/
def Steadies (T : Label → Prop) (x : Lowering Unit) : Prop :=
  ∀ D K d, Sound D K d T → Balanced D K (height d) x D (fun l => K l ∨ T l) (height d)

namespace Steadies

variable {T U : Label → Prop}

theorem of_pushes {x : Lowering Unit} (hx : Pushes 0 x) : Steadies (fun _ => False) x := fun D K d _ =>
  hx.same.forget fun _ h => h.resolve_right id

theorem seq {x : Lowering Unit} {y : Unit → Lowering Unit} (hx : Steadies T x) (hy : Steadies U (y ())) :
    Steadies (fun l => T l ∨ U l) (x >>= y) := fun D K d hs =>
  ((hx D K d (hs.imp fun _ => .inl)).seq (hy D _ d ((hs.imp fun _ => .inr).learn fun _ => .inl))).forget
    fun _ h => or_assoc.2 h

theorem congr {x : Lowering Unit} (hx : Steadies T x) (h : ∀ l, T l ↔ U l) : Steadies U x :=
  (funext fun l => propext (h l) : T = U) ▸ hx

theorem jump (l : Label) : Steadies (fun l' => l' = l) (emitJump .jump l) := by
  intro D K d hs
  obtain hd | ⟨hd, hk⟩ := hs l rfl
  · exact .goto hd
  · obtain ⟨e, he⟩ := Option.isSome_iff_exists.1 hd
    exact (Balanced.emitJump .jump he (.inr hk)).level (Int.add_zero d)

end Steadies

/-- The constructs around a statement have these shapes. -/
inductive Shaped : List Region → List Shape → Prop
  | nil : Shaped [] []
  | breakable {rs ss} (labels kind breakTo continueTo) : Shaped rs ss →
    Shaped (.breakable labels kind breakTo continueTo :: rs) (.breakable labels kind breakTo continueTo :: ss)
  | attempt {rs ss} : Shaped rs ss → Shaped (.attempt none :: rs) (.attempt (fun _ => False) :: ss)
  | finalized {rs ss T f} : Steadies T f → Shaped rs ss → Shaped (.attempt (some f) :: rs) (.attempt T :: ss)
  | scope {rs ss} : Shaped rs ss → Shaped (.scope :: rs) (.scope :: ss)

/-- A part of a statement leaves the stack as it found it, and these are its ways out. -/
def Departs (F : Way → Prop) (p : Part) : Prop :=
  ∀ ctx ss, Shaped ctx.regions ss → Steadies (targets F ss) (p ctx)

/-- A part of a statement leaves the stack as it found it; its ways out do not depend on
where it stands. -/
def PartSteady (p : Part) : Prop := ∃ F, Departs F p

/-! ## Leaving constructs -/

theorem steady_unwind {rs : List Region} {ss : List Shape} (h : Shaped rs ss) :
    Steadies (Way.leave.reaches ss) (unwind rs) := by
  induction h with
  | nil => exact .of_pushes .pure
  | breakable labels kind b c _ ih =>
    refine ih.congr fun l => ⟨fun h => .inr ⟨id, h⟩, ?_⟩
    rintro (⟨h, -⟩ | ⟨-, h⟩)
    · exact h.elim
    · exact h
  | attempt _ ih =>
    exact ((Steadies.of_pushes (.emit .leaveTry)).seq ((Steadies.of_pushes .pure).seq ih)).congr fun l => by
      simp [Way.reaches]
  | finalized hf _ ih =>
    exact ((Steadies.of_pushes (.emit .leaveTry)).seq (hf.seq ih)).congr fun l => by simp [Way.reaches]
  | scope _ ih =>
    exact ((Steadies.of_pushes (.emit .popScope)).seq ih).congr fun l => by simp [Way.reaches]

theorem not_reaches_leave {rs : List Region} {ss : List Shape} (h : Shaped rs ss)
    (hr : rs.any Region.isFinalized = false) (l : Label) : ¬ Way.leave.reaches ss l := by
  induction h with
  | nil => exact id
  | breakable labels kind b c _ ih =>
    rintro (⟨h, -⟩ | ⟨-, h⟩)
    · exact h
    · exact ih (by simpa [Region.isFinalized] using hr) h
  | attempt _ ih =>
    rintro (h | h)
    · exact h
    · exact ih (by simpa [Region.isFinalized] using hr) h
  | finalized => simp [Region.isFinalized] at hr
  | scope _ ih => exact ih (by simpa [Region.isFinalized] using hr)

section

variable {kind : JumpKind} {label : Option String} {labels : List String} {k : BreakableKind} {b : Label}
  {c : Option Label} {rs : List Region}

theorem target_past (h : kind.refersTo label labels k = false) :
    kind.target label (.breakable labels k b c :: rs) =
      JumpKind.target.keep (.breakable labels k b c) (kind.target label rs) := by
  simp [JumpKind.target, h]

theorem target_ok_here {l left} (h : kind.refersTo label labels k = true)
    (ht : kind.target label (.breakable labels k b c :: rs) = .ok (l, left)) :
    left = [] ∧ ∀ l', l' = l ↔ (Way.jump kind label).lands b c l' := by
  simp only [JumpKind.target, h, if_true] at ht
  split at ht
  · cases ht
    exact ⟨rfl, fun _ => Iff.rfl⟩
  · cases ht
    exact ⟨rfl, fun l' => by simp [Way.lands, eq_comm]⟩
  · cases ht

theorem keep_ok {r : Region} {x : Except Fault (Label × List Region)} {l left}
    (h : JumpKind.target.keep r x = .ok (l, left)) : ∃ left', left = r :: left' ∧ x = .ok (l, left') := by
  cases x with
  | error => cases h
  | ok p =>
    cases h
    exact ⟨p.2, rfl, rfl⟩

theorem keep_error {r : Region} {x : Except Fault (Label × List Region)} {f : Fault}
    (h : JumpKind.target.keep r x = .error f) : x = .error f := by
  cases x with
  | error => exact congrArg Except.error (Except.error.inj h)
  | ok => cases h

theorem target_ofProgram : ∀ {rs : List Region} {f : Fault}, kind.target label rs = .error f → f.OfProgram
  | [], f, h => by
    cases h
    exact .inl rfl
  | .scope :: _, f, h => target_ofProgram (keep_error h)
  | .attempt _ :: _, f, h => target_ofProgram (keep_error h)
  | .breakable labels k b c :: _, f, h => by
    cases hr : kind.refersTo label labels k with
    | false => exact target_ofProgram (keep_error ((target_past hr).symm.trans h))
    | true =>
      simp only [JumpKind.target, hr, if_true] at h
      split at h
      · cases h
      · cases h
      · cases h
        exact .inl rfl

end

theorem steady_leave {kind : JumpKind} {label : Option String} {rs : List Region} {ss : List Shape}
    (h : Shaped rs ss) : ∀ {l left}, kind.target label rs = .ok (l, left) →
      Steadies ((Way.jump kind label).reaches ss) (unwind left >>= fun _ => emitJump .jump l) := by
  induction h with
  | nil => nofun
  | breakable labels k b c hrs ih =>
    intro l left ht
    cases hr : kind.refersTo label labels k with
    | true =>
      obtain ⟨rfl, hl⟩ := target_ok_here hr ht
      refine (Steadies.jump l).congr fun l' => ?_
      simp [Way.reaches, Way.refersTo, hr, hl]
    | false =>
      obtain ⟨left', rfl, ht'⟩ := keep_ok ((target_past hr).symm.trans ht)
      refine (ih ht').congr fun l => ?_
      simp [Way.reaches, Way.refersTo, hr]
  | attempt hrs ih =>
    intro l left ht
    obtain ⟨left', rfl, ht'⟩ := keep_ok ht
    simp only [unwind, bind_assoc]
    refine ((Steadies.of_pushes (.emit .leaveTry)).seq ((Steadies.of_pushes .pure).seq (ih ht'))).congr fun l => ?_
    simp [Way.reaches]
  | finalized hf hrs ih =>
    intro l left ht
    obtain ⟨left', rfl, ht'⟩ := keep_ok ht
    simp only [unwind, bind_assoc]
    refine ((Steadies.of_pushes (.emit .leaveTry)).seq (hf.seq (ih ht'))).congr fun l => ?_
    simp [Way.reaches]
  | scope hrs ih =>
    intro l left ht
    obtain ⟨left', rfl, ht'⟩ := keep_ok ht
    simp only [unwind, bind_assoc]
    refine ((Steadies.of_pushes (.emit .popScope)).seq (ih ht')).congr fun l => ?_
    simp [Way.reaches]

theorem steady_jump (kind : JumpKind) (label : Option String) : PartSteady (lowerJump kind label) := by
  refine ⟨fun w => w = .jump kind label, fun ctx ss hs => ?_⟩
  have hT : ∀ l, (Way.jump kind label).reaches ss l ↔ targets (fun w => w = .jump kind label) ss l := by
    simp [targets]
  refine Steadies.congr (fun D K d hsound => ?_) hT
  change Balanced _ _ _ (liftM (kind.target label ctx.regions) >>= _) _ _ _
  cases ht : kind.target label ctx.regions with
  | error f => exact fun _ _ _ => target_ofProgram ht
  | ok p => exact steady_leave hs ht D K d hsound

theorem steady_of_pushes {p : Part} (hp : ∀ ctx, Pushes 0 (p ctx)) : PartSteady p :=
  ⟨fun _ => False, fun ctx _ _ => (Steadies.of_pushes (hp ctx)).congr fun l => by simp [targets]⟩

theorem balanced_returnTop {ctx : Context} {ss : List Shape} (hs : Shaped ctx.regions ss) {D K d}
    (hsound : Sound D K d (Way.leave.reaches ss)) :
    Balanced D K (height (d + 1)) (returnTop ctx) D (fun l => K l ∨ Way.leave.reaches ss l) (height d) := by
  rw [returnTop]
  cases ha : ctx.regions.any Region.isFinalized with
  | false =>
    exact (Pushes.emit .ret).drop.forget fun l h => h.resolve_right (not_reaches_leave hs ha l)
  | true =>
    refine .silent .newTemporary fun value => ?_
    refine (Pushes.emitWith .storeLocal (.temporary value)).drop.seq ?_
    refine (steady_unwind hs D K d hsound).seq ((Pushes.emitWith .loadLocal (.temporary value) D _ d).seq ?_)
    exact (Pushes.emit .ret).drop

/-! ## Simple statements -/

section

variable {inner : FunctionLowering} {P : FunctionTree → Prop} (hi : Admits inner P)
include hi

theorem pushes_declarators : ∀ (ds : List Declarator) (ctx : Context), declaratorsHold P ds →
    Pushes 0 (lowerDeclarators inner ds ctx)
  | [], ctx, _ => .pure
  | ⟨id, none⟩ :: ds, ctx, h => pushes_declarators ds ctx h.2
  | ⟨id, some init⟩ :: ds, ctx, h =>
    .of ((pushes_expr hi ctx init h.1).seq ((Pushes.store ctx id.name).seq ((Pushes.emit .pop).seq
      (pushes_declarators ds ctx h.2)))) rfl

theorem pushes_evaluation {e : Expr} (he : e.Holds P) (ctx : Context) : Pushes 0 (lowerEvaluation inner e ctx) := by
  rw [lowerEvaluation]
  cases ctx.completion with
  | some => exact .of ((pushes_expr hi ctx e he).seq (.emitWith .storeLocal _)) rfl
  | none => exact .of ((pushes_expr hi ctx e he).seq (.emit .pop)) rfl

theorem pushes_throw {e : Expr} (he : e.Holds P) (ctx : Context) : Pushes 0 (lowerThrow inner e ctx) :=
  .of ((pushes_expr hi ctx e he).seq (.emit .throwValue)) rfl

theorem steady_return {value : Option Expr} (hv : optionHolds P value) : PartSteady (lowerReturn inner value) := by
  refine ⟨fun w => w = .leave, fun ctx ss hs => ?_⟩
  have hT : ∀ l, Way.leave.reaches ss l ↔ targets (fun w => w = .leave) ss l := by simp [targets]
  refine Steadies.congr (fun D K d hsound => ?_) hT
  have hreturn := balanced_returnTop hs hsound
  rw [lowerReturn]
  split
  · cases value with
    | none => exact (Pushes.emit .loadUndefined D K d).seq hreturn
    | some e => exact (pushes_expr hi ctx e hv D K d).seq hreturn
  · exact fun _ _ _ => Fault.ofProgram_source .illegalReturn

theorem steady_branch {test : Expr} (ht : test.Holds P) {consequent : Part} {alternate : Option Part}
    (hc : PartSteady consequent) (ha : ∀ p, alternate = some p → PartSteady p) :
    PartSteady (lowerBranch inner test consequent alternate) := by
  obtain ⟨F, hc⟩ := hc
  cases alternate with
  | none =>
    refine ⟨F, fun ctx ss hs D K d hsound => .newLabel d fun otherwise hnew => ?_⟩
    refine (pushes_expr hi ctx test ht _ K d).seq ((Balanced.jumpIf (.inl rfl) (D.add_self otherwise d)).seq
      ((hc ctx ss hs _ _ d ((hsound.add otherwise).learn fun _ => .inl)).seq ((Balanced.place hnew).forget ?_)))
    exact fun l hl => hl.imp_left .inl
  | some p =>
    obtain ⟨G, hp⟩ := ha p rfl
    refine ⟨fun w => F w ∨ G w, fun ctx ss hs D K d hsound => .newLabel d fun otherwise hnew => ?_⟩
    have hF := hsound.left
    have hG := hsound.right
    refine (pushes_expr hi ctx test ht _ K d).seq ((Balanced.jumpIf (.inl rfl) (D.add_self otherwise d)).seq
      ((hc ctx ss hs _ _ d ((hF.add otherwise).learn fun _ => .inl)).seq (.newLabel d fun done hdone => ?_)))
    obtain ⟨hne, hdone⟩ := Aims.of_add_none hdone
    have hboth : (D.add otherwise d).add done d otherwise = some d := by
      rw [Aims.add_ne _ _ hne, Aims.add_self]
    refine (Balanced.goto (Aims.add_self _ _ _)).seq ((Balanced.mark hboth).seq ?_)
    rw [Aims.remove_add_ne _ _ hne, Aims.remove_add _ hnew]
    refine (hp ctx ss hs _ _ d ((hG.add done).learn fun l hl => .inl (.inl (.inl (.inl hl))))).seq
      ((Balanced.place hdone).forget fun l hl => ?_)
    rw [targets_or, ← or_assoc] at hl
    exact hl.imp_left fun hl => .inl (.inl (hl.imp_left .inl))

/-! ## Loops -/

theorem pushes_loopInit {head : LoopHead} (hh : head.Holds P) (keys : Nat) (ctx : Context) :
    Pushes 0 (lowerLoopInit inner head keys ctx) := by
  match head, hh with
  | .counted none _ _, _ => exact .pure
  | .counted (some (.declare ds)) _ _, hh => exact pushes_declarators hi ds ctx (hh.1 _ rfl)
  | .counted (some (.evaluate e)) _ _, hh =>
    exact .of ((pushes_expr hi ctx e (hh.1 _ rfl)).seq (.emit .pop)) rfl
  | .whileTest _, _ => exact .pure
  | .doWhile _, _ => exact .pure
  | .forIn (.declare ⟨id, init⟩) object, hh =>
    exact .of ((pushes_declarators hi [⟨id, init⟩] ctx ⟨hh.1, trivial⟩).seq ((pushes_expr hi ctx object hh.2).seq
      (.emitWith .forInPrepare (.temporary keys)))) rfl
  | .forIn (.assign _) object, hh =>
    exact .of ((pushes_expr hi ctx object hh.2).seq (.emitWith .forInPrepare (.temporary keys))) rfl

theorem pushes_loopCondition {head : LoopHead} (hh : head.Holds P) (keys : Nat) (ctx : Context) :
    Pushes 1 (lowerLoopCondition inner head keys ctx) := by
  match head, hh with
  | .counted _ (some test) _, hh => exact pushes_expr hi ctx test hh.2.1
  | .counted _ none _, _ => exact .emit .loadTrue
  | .whileTest test, hh => exact pushes_expr hi ctx test hh
  | .doWhile test, hh => exact pushes_expr hi ctx test hh
  | .forIn _ _, _ => exact .emitWith .forInHasNext (.temporary keys)

theorem balanced_loopTest {head : LoopHead} (hh : head.Holds P) (keys : Nat) (ctx : Context) {exit : Label} {D K d}
    (hl : D exit = some d) :
    Balanced D K (height d) (lowerLoopTest inner head keys exit ctx) D K (height d) := by
  have hc := pushes_loopCondition hi hh keys ctx D K d
  have htest : Balanced D K (height d) (lowerLoopCondition inner head keys ctx >>= fun _ => emitJump .jumpIfFalse exit)
      D K (height d) := (hc.seq (Balanced.jumpIf (.inl rfl) hl)).forget fun _ => .inl
  match head, htest with
  | .counted _ none _, _ => exact .pure
  | .counted _ (some _) _, htest => exact htest
  | .whileTest _, htest => exact htest
  | .doWhile _, htest => exact htest
  | .forIn _ _, htest => exact htest

theorem pushes_loopUpdate {head : LoopHead} (hh : head.Holds P) (ctx : Context) :
    Pushes 0 (lowerLoopUpdate inner head ctx) := by
  match head, hh with
  | .counted _ _ (some update), hh => exact .of ((pushes_expr hi ctx update hh.2.2).seq (.emit .pop)) rfl
  | .counted _ _ none, _ => exact .pure
  | .whileTest _, _ => exact .pure
  | .doWhile _, _ => exact .pure
  | .forIn _ _, _ => exact .pure

theorem pushes_assignTop {e : Expr} (he : e.Holds P) (ctx : Context) : Pushes 0 (assignTop inner ctx e) := by
  have hr := pushes_reference hi ctx e he
  rw [assignTop]
  match reference inner ctx e, hr with
  | .variable name, _ => exact .store ctx name
  | .property _ _, hr =>
    exact .silent .newTemporary fun value => .of ((Pushes.emitWith .storeLocal (.temporary value)).seq
      (hr.1.seq (hr.2.seq ((Pushes.emitWith .loadLocal (.temporary value)).seq (.emit .setProperty))))) rfl
  | .value, _ => exact .throws (.inl rfl)

section

variable {head : LoopHead} (hh : head.Holds P) (keys : Nat) (labels : List String) {body : Part} {F : Way → Prop}
  (hb : Departs F body) {ctx : Context} {ss : List Shape} (hs : Shaped ctx.regions ss)
include hh hb hs

theorem balanced_round {breakTo continueTo : Label} {D K d} (hbreak : D breakTo = some d) (hcontinue : D continueTo = some d)
    (hsound : Sound D K d (targets (outside F labels .loop) ss)) :
    Balanced D K (height d) (lowerRound inner head keys labels body breakTo continueTo ctx) D
      (fun l => K l ∨ targets (outside F labels .loop) ss l) (height d) := by
  have hbody : Balanced D K (height d) (body (ctx.within (.breakable labels .loop breakTo (some continueTo)))) D
      (fun l => K l ∨ targets (outside F labels .loop) ss l) (height d) := by
    refine (hb _ _ (.breakable labels .loop breakTo (some continueTo) hs) D K d fun l hl => ?_).forget fun l hl =>
      hl.imp_right targets_outside
    obtain rfl | hc | hl := targets_breakable hl
    · exact .inl hbreak
    · cases hc
      exact .inl hcontinue
    · exact hsound l hl
  have hpop : Balanced D K (height (d + 1 + 0)) (emit .pop) D K (height d) :=
    (Pushes.emit .pop D K _).level (by change d + 1 + 0 + -1 = d; omega)
  have hnext := Pushes.emitWith .forInNext (.temporary keys) D K d
  match head, hh with
  | .counted _ _ _, _ => exact hbody
  | .whileTest _, _ => exact hbody
  | .doWhile _, _ => exact hbody
  | .forIn (.declare v) _, _ => exact hnext.seq ((Pushes.store ctx v.id.name D K (d + 1)).seq (hpop.seq hbody))
  | .forIn (.assign e) _, hh => exact hnext.seq ((pushes_assignTop hi hh.1 ctx D K (d + 1)).seq (hpop.seq hbody))

theorem balanced_turns {D K d} (hsound : Sound D K d (targets (outside F labels .loop) ss))
    {y : Lowering Unit} {D' K' P'} (hy : Balanced D K (height d) y D' K' P') :
    Balanced D K (height d) (do
      let top ← newLabel
      let last ← newLabel
      let again ← newLabel
      mark top
      lowerLoopTest inner head keys last ctx
      lowerRound inner head keys labels body last again ctx
      mark again
      lowerLoopUpdate inner head ctx
      emitJump .jump top
      mark last
      y) D' K' P' := by
  refine .newLabel d fun top htop => .newLabel d fun last hlast => .newLabel d fun again hagain => ?_
  obtain ⟨hlt, hlast⟩ := Aims.of_add_none hlast
  obtain ⟨hal, hagain⟩ := Aims.of_add_none hagain
  obtain ⟨hat, hagain⟩ := Aims.of_add_none hagain
  refine (Balanced.mark (by rw [Aims.add_ne _ _ hat, Aims.add_ne _ _ hlt, Aims.add_self])).seq ?_
  rw [Aims.remove_add_ne _ _ hat, Aims.remove_add_ne _ _ hlt, Aims.remove_add _ htop]
  have hlast' : (D.add last d).add again d last = some d := by rw [Aims.add_ne _ _ hal, Aims.add_self]
  have hsound' : Sound ((D.add last d).add again d) (fun l => K l ∨ l = top) d (targets (outside F labels .loop) ss) :=
    ((hsound.add last).add again).learn fun _ => .inl
  refine (balanced_loopTest hi hh keys ctx hlast').seq ((balanced_round hi hh keys labels hb hs hlast'
    (Aims.add_self _ _ _) hsound').seq ((Balanced.place ((D.add_ne d hal.symm).trans hagain)).seq ?_))
  refine (pushes_loopUpdate hi hh ctx).same.seq (((Balanced.back .jump
    ((D.add_ne d hlt).trans htop) (.inl (.inr rfl))).level (Int.add_zero d)).seq ?_)
  exact ((Balanced.place hlast).forget fun l hl => .inl (.inl hl)).seq hy

theorem steady_rotatedLoop :
    Steadies (targets (outside F labels .loop) ss) (lowerRotatedLoop inner head keys labels body ctx) := by
  intro D K d hsound
  refine .newLabel d fun done hdone => .newLabel d fun next hnext => ?_
  obtain ⟨hne, -⟩ := Aims.of_add_none hnext
  have hdone' : (D.add done d).add next d done = some d := by rw [Aims.add_ne _ _ hne, Aims.add_self]
  refine Balanced.optional (balanced_loopTest hi hh keys ctx hdone') ?_
  refine (balanced_round hi hh keys labels hb hs hdone' (Aims.add_self _ _ _) ((hsound.add done).add next)).seq
    ((Balanced.place hnext).seq ((pushes_loopUpdate hi hh ctx).same.seq ?_))
  exact balanced_turns hi hh keys labels hb hs ((hsound.add done).learn fun _ => .inl) (.place hdone)

theorem steady_simpleLoop :
    Steadies (targets (outside F labels .loop) ss) (lowerSimpleLoop inner head keys labels body ctx) := by
  intro D K d hsound
  refine .newLabel d fun top htop => .newLabel d fun start hstart => .newLabel d fun next hnext =>
    .newLabel d fun done hdone => ?_
  obtain ⟨hts, hstart⟩ := Aims.of_add_none hstart
  obtain ⟨hsn, hnext⟩ := Aims.of_add_none hnext
  obtain ⟨htn, hnext⟩ := Aims.of_add_none hnext
  obtain ⟨hnd, hdone⟩ := Aims.of_add_none hdone
  obtain ⟨hsd, hdone⟩ := Aims.of_add_none hdone
  obtain ⟨htd, hdone⟩ := Aims.of_add_none hdone
  refine (Balanced.mark (by rw [Aims.add_ne _ _ htd, Aims.add_ne _ _ htn, Aims.add_ne _ _ hts, Aims.add_self])).seq ?_
  rw [Aims.remove_add_ne _ _ htd, Aims.remove_add_ne _ _ htn, Aims.remove_add_ne _ _ hts, Aims.remove_add _ htop]
  refine Balanced.optional (balanced_loopTest hi hh keys ctx (Aims.add_self _ _ _)) ?_
  refine (Balanced.mark (by rw [Aims.add_ne _ _ hsd, Aims.add_ne _ _ hsn, Aims.add_self])).seq ?_
  rw [Aims.remove_add_ne _ _ hsd, Aims.remove_add_ne _ _ hsn, Aims.remove_add _ hstart]
  have hnext' : (D.add next d).add done d next = some d := by rw [Aims.add_ne _ _ hnd, Aims.add_self]
  have hsound' : Sound ((D.add next d).add done d) (fun l => (K l ∨ l = top) ∨ l = start) d
      (targets (outside F labels .loop) ss) := ((hsound.add next).add done).learn fun _ h => .inl (.inl h)
  refine (balanced_round hi hh keys labels hb hs (Aims.add_self _ _ _) hnext' hsound').seq
    (((Balanced.mark hnext').forget fun _ => .inl).seq ?_)
  rw [Aims.remove_add_ne _ _ hnd, Aims.remove_add _ hnext]
  refine (pushes_loopUpdate hi hh ctx).same.seq ?_
  have hplace : Balanced (D.add done d) (fun l => ((K l ∨ l = top) ∨ l = start) ∨ targets (outside F labels .loop) ss l)
      (height d) (mark done) D (fun l => K l ∨ targets (outside F labels .loop) ss l) (height d) :=
    (Balanced.place hdone).forget fun _ h => h.imp_left fun h => .inl (.inl h)
  -- both jumps back go to labels that stand
  split
  · refine (pushes_loopCondition hi hh keys ctx _ _ d).seq (((Balanced.back .jumpIfTrue
      ((D.add_ne d hsd).trans hstart) (.inl (.inr rfl))).level (Int.add_neg_cancel_right d 1)).seq hplace)
  · exact ((Balanced.back .jump ((D.add_ne d htd).trans htop) (.inl (.inl (.inr rfl)))).level (Int.add_zero d)).seq
      hplace

end

theorem steady_loop {head : LoopHead} (hh : head.Holds P) (labels : List String) {body : Part} (hb : PartSteady body) :
    PartSteady (lowerLoop inner head labels body) := by
  obtain ⟨F, hb⟩ := hb
  refine ⟨outside F labels .loop, fun ctx ss hs D K d hsound => ?_⟩
  have h : ∀ keys, Balanced D K (height d) (do
      lowerLoopInit inner head keys ctx
      if ctx.options.loopRotation then lowerRotatedLoop inner head keys labels body ctx
      else lowerSimpleLoop inner head keys labels body ctx) D
      (fun l => K l ∨ targets (outside F labels .loop) ss l) (height d) := by
    intro keys
    refine (pushes_loopInit hi hh keys ctx).same.seq ?_
    split
    · exact steady_rotatedLoop hi hh keys labels hb hs D K d hsound
    · exact steady_simpleLoop hi hh keys labels hb hs D K d hsound
  cases head with
  | counted init test update => exact h 0
  | whileTest test => exact h 0
  | doWhile test => exact h 0
  | forIn target object => exact .silent .newTemporary h

/-! ## Switch -/

def Aims.addAll (D : Aims) (ls : List Label) (e : Int) : Aims := fun l => if l ∈ ls then some e else D l

omit hi in
theorem balanced_labelClauses {D D' : Aims} {K K' : Label → Prop} {P'} {d : Int} :
    ∀ (clauses : List (Option Expr × Part)) {f : List Clause → Lowering Unit},
      (∀ cs : List Clause, cs.map (fun c => (c.test, c.body)) = clauses → (cs.map Clause.label).Nodup →
        (∀ c ∈ cs, D c.label = none) → Balanced (D.addAll (cs.map Clause.label) d) K (height d) (f cs) D' K' P') →
      Balanced D K (height d) (labelClauses clauses >>= f) D' K' P'
  | [], f, hf => by
    have h := hf [] rfl .nil (by simp)
    have hD : D.addAll [] d = D := by
      funext l
      simp [Aims.addAll]
    rw [List.map_nil, hD] at h
    exact h
  | (test, body) :: clauses, f, hf => by
    simp only [labelClauses, List.mapM_cons, bind_assoc, pure_bind]
    refine .newLabel d fun l hl => ?_
    refine balanced_labelClauses clauses fun cs hcs hnodup hfresh => ?_
    have hfresh' : ∀ c ∈ cs, l ≠ c.label ∧ D c.label = none := fun c hc => Aims.of_add_none (hfresh c hc)
    have h := hf (⟨test, body, l⟩ :: cs) (by simp [hcs]) ?_ ?_
    · have hD : (D.add l d).addAll (cs.map Clause.label) d = D.addAll (l :: cs.map Clause.label) d := by
        funext l'
        simp only [Aims.addAll, Aims.add, List.mem_cons]
        grind
      rw [hD]
      exact h
    · refine List.nodup_cons.2 ⟨fun hm => ?_, hnodup⟩
      obtain ⟨c, hc, hl'⟩ := List.mem_map.1 hm
      exact (hfresh' c hc).1 hl'.symm
    · intro c hc
      obtain rfl | hc := List.mem_cons.1 hc
      · exact hl
      · exact (hfresh' c hc).2

theorem balanced_clauseTests (ctx : Context) (value : Nat) {D : Aims} {K : Label → Prop} {d : Int} :
    ∀ cs : List Clause, (∀ c ∈ cs, optionHolds P c.test ∧ D c.label = some d) →
      Balanced D K (height d) (lowerClauseTests inner ctx value cs) D K (height d)
  | [], _ => .pure
  | ⟨none, _, _⟩ :: cs, h => balanced_clauseTests ctx value cs fun c hc => h c (.tail _ hc)
  | ⟨some test, _, label⟩ :: cs, h => by
    obtain ⟨htest, hl⟩ := h _ (.head _)
    refine (Pushes.emitWith .loadLocal (.temporary value) D K d).seq ((pushes_expr hi ctx test htest D K _).seq ?_)
    refine (Pushes.emit .strictEq).drop.seq ?_
    exact ((Balanced.jumpIf (.inr rfl) hl).forget fun _ => .inl).seq
      (balanced_clauseTests ctx value cs fun c hc => h c (.tail _ hc))

omit hi in
theorem balanced_clauseBodies : ∀ clauses : List (Option Expr × Part), (∀ c ∈ clauses, PartSteady c.2) →
    ∃ F : Way → Prop, ∀ cs : List Clause, cs.map (fun c => (c.test, c.body)) = clauses →
      (cs.map Clause.label).Nodup → ∀ ctx ss, Shaped ctx.regions ss → ∀ D K d, (∀ c ∈ cs, D c.label = none) →
      Sound D K d (targets F ss) →
      Balanced (D.addAll (cs.map Clause.label) d) K (height d) (lowerClauseBodies ctx cs) D
        (fun l => K l ∨ targets F ss l) (height d)
  | [], _ => by
    refine ⟨fun _ => False, fun cs hcs _ ctx ss _ D K d _ _ => ?_⟩
    obtain rfl := List.map_eq_nil_iff.1 hcs
    have hD : D.addAll ([].map Clause.label) d = D := by
      funext l
      simp [Aims.addAll]
    exact Balanced.pure.forget fun l hl => hl.resolve_right (by simp [targets])
  | (test, body) :: clauses, h => by
    obtain ⟨F, hbody⟩ := h _ (.head _)
    obtain ⟨G, hrest⟩ := balanced_clauseBodies clauses fun c hc => h c (.tail _ hc)
    refine ⟨fun w => F w ∨ G w, fun cs hcs hnodup ctx ss hs D K d hfresh hsound => ?_⟩
    obtain ⟨⟨test', body', l⟩, cs, rfl, hc, rfl⟩ := List.map_eq_cons_iff.1 hcs
    obtain ⟨rfl, rfl⟩ := Prod.mk.inj hc
    obtain ⟨hl, hnodup⟩ := List.nodup_cons.1 hnodup
    have hF : Sound (D.addAll (cs.map Clause.label) d) K d (targets F ss) := by
      intro l' hl'
      rw [Aims.addAll]
      split
      · exact .inl rfl
      · exact hsound l' (targets_or.2 (.inl hl'))
    have hG := hsound.right
    have hremove : (D.addAll (l :: cs.map Clause.label) d).remove l = D.addAll (cs.map Clause.label) d := by
      have hD : D l = none := hfresh _ (.head _)
      funext l'
      simp only [Aims.addAll, Aims.remove, List.mem_cons]
      grind
    have hmark : Balanced (D.addAll (l :: cs.map Clause.label) d) K (height d) (mark l)
        (D.addAll (cs.map Clause.label) d) K (height d) :=
      hremove ▸ (Balanced.mark (by simp [Aims.addAll])).forget fun _ => .inl
    refine hmark.seq ((hbody ctx ss hs _ K d hF).seq ((hrest cs rfl hnodup ctx ss hs D _ d
      (fun c hc => hfresh c (.tail _ hc)) (hG.learn fun _ => .inl)).forget fun l' hl' => ?_))
    rw [targets_or, ← or_assoc] at hl'
    exact hl'

theorem steady_switch {discriminant : Expr} (hd : discriminant.Holds P) (labels : List String)
    {clauses : List (Option Expr × Part)} (ht : ∀ c ∈ clauses, optionHolds P c.1)
    (hc : ∀ c ∈ clauses, PartSteady c.2) : PartSteady (lowerSwitch inner discriminant labels clauses) := by
  obtain ⟨F, hbodies⟩ := balanced_clauseBodies clauses hc
  refine ⟨outside F labels .switch, fun ctx ss hs D K d hsound => ?_⟩
  refine .silent .newTemporary fun value => (pushes_expr hi ctx discriminant hd D K d).seq ?_
  refine (Pushes.emitWith .storeLocal (.temporary value)).drop.seq ?_
  refine .newLabel d fun done hdone => balanced_labelClauses clauses fun cs hcs hnodup hfresh => ?_
  have hlabel : ∀ c ∈ cs, (D.add done d).addAll (cs.map Clause.label) d c.label = some d := fun c hc => by
    rw [Aims.addAll, if_pos (List.mem_map.2 ⟨c, hc, rfl⟩)]
  have htests : ∀ c ∈ cs, optionHolds P c.test := fun c hc => ht (c.test, c.body) (hcs ▸ List.mem_map.2 ⟨c, hc, rfl⟩)
  have hdefault : (D.add done d).addAll (cs.map Clause.label) d
      (((cs.reverse.find? fun c => c.test.isNone).map Clause.label).getD done) = some d := by
    cases hf : cs.reverse.find? fun c => c.test.isNone with
    | some c => exact hlabel c (List.mem_reverse.1 (List.mem_of_find?_eq_some hf))
    | none =>
      simp only [Option.map_none, Option.getD_none, Aims.addAll, Aims.add_self]
      split <;> rfl
  refine (balanced_clauseTests hi ctx value cs fun c hc => ⟨htests c hc, hlabel c hc⟩).seq
    (((Balanced.goto hdefault).forget fun _ => .inl).seq ?_)
  refine (hbodies cs hcs hnodup _ _ (.breakable labels .switch done none hs) _ K d hfresh fun l hl => ?_).seq
    ((Balanced.place hdone).forget fun l hl => hl.imp_right targets_outside)
  obtain rfl | h | hl := targets_breakable hl
  · exact .inl (D.add_self _ d)
  · cases h
  · exact hsound.add done l hl

/-! ## Exceptions and scopes -/

omit hi in
theorem declareCatch_push (a : ScopeArena) (parent : Option ScopeRef) {kind : ScopeKind} (wanted : Storage)
    (hkind : kind = .catchClause ∨ kind = .callee) (name : String) (span : Span) :
    ∃ p, (a.push parent kind wanted).2.declareCatch (a.push parent kind wanted).1 name span = .ok p := by
  rw [ScopeArena.declareCatch, ScopeArena.get_push_self]
  obtain rfl | rfl := hkind <;> exact ⟨_, rfl⟩

omit hi in
theorem silent_bindingScope (parent : ScopeRef) (id : Identifier) :
    Silent (bindingScope parent .catchClause id) := by
  refine .onScopes fun a e h => ?_
  obtain ⟨p, hp⟩ := declareCatch_push a (some parent) .static (.inl rfl) id.name id.span
  simp only [hp] at h
  cases h

omit hi in
theorem balanced_catch (param : Identifier) {body : Part} {F : Way → Prop}
    (hb : Departs F body) {ctx : Context} {ss : List Shape}
    (hs : Shaped ctx.regions ss) {D K d} (hsound : Sound D K d (targets F ss)) :
    Balanced D K (height (d + 1)) (lowerCatch param body ctx) D (fun l => K l ∨ targets F ss l) (height d) := by
  refine .silent (silent_bindingScope ctx.scope param) fun scope => .silent (.stringConstant param.name) fun key => ?_
  refine (Pushes.emitWith .pushCatchScope (.property key)).drop.seq ?_
  exact (hb (ctx.inScope scope) (.scope :: ss) (.scope hs) D K d hsound).seq
    (Pushes.emit .popScope).same

omit hi in
theorem balanced_finalizer {finalizer : Part} {F : Way → Prop}
    (hf : Departs F finalizer) {ctx : Context} {ss : List Shape}
    (hs : Shaped ctx.regions ss) {done rethrow : Label} {D K d e} (hdone : D done = none) (hrethrow : D rethrow = none)
    (hne : done ≠ rethrow) (hk : K rethrow) (hsound : Sound D K d (targets F ss)) :
    Balanced ((D.add done d).add rethrow (e + 1)) K (height d)
      (lowerFinalizerCode (some finalizer) ctx done rethrow >>= fun _ => mark done) D
      (fun l => K l ∨ targets F ss l) (height d) := by
  have hdone' : (D.add done d).add rethrow (e + 1) done = some d := by rw [Aims.add_ne _ _ hne, Aims.add_self]
  have hsound₁ := (hsound.add done).add_new ((D.add_ne d hne.symm).trans hrethrow) (e + 1)
  simp only [lowerFinalizerCode, bind_assoc]
  refine (hf ctx ss hs _ K d hsound₁).seq ((Balanced.leaves hdone' (.inl rfl)).seq ?_)
  refine (Balanced.mark_closed (Aims.add_self _ _ _) (.inl (.inl hk))).seq (.silent .newTemporary fun exception => ?_)
  rw [Aims.remove_add _ ((D.add_ne d hne.symm).trans hrethrow)]
  refine (Pushes.emitWith .storeLocal (.temporary exception)).drop.seq ?_
  -- at another height the copy relies on the first one
  refine (hf ctx ss hs _ _ e fun l hl => .inr ⟨?_, .inl (.inr hl)⟩).seq
    ((Pushes.emitWith .loadLocal (.temporary exception) _ _ e).seq ((Balanced.closes rfl).seq ?_))
  · have h := hsound.add done l hl
    obtain h | ⟨h, -⟩ := h
    · simp [h]
    · exact h
  · refine ((Balanced.mark_closed (D.add_self done d) (.inl (.inr rfl))).forget fun l hl => .inl (.inl hl)).aims ?_
    exact Aims.remove_add d hdone

omit hi in
theorem steady_attemptCatch {block body : Part} (param : Identifier) (hb : PartSteady block) (hh : PartSteady body) :
    PartSteady (lowerAttempt block (some (param, body)) none) := by
  obtain ⟨F, hb⟩ := hb
  obtain ⟨H, hh⟩ := hh
  refine ⟨fun w => F w ∨ H w, fun ctx ss hs D K d hsound => ?_⟩
  have hF := hsound.left
  have hH := hsound.right
  refine .newLabel d fun done hdone => .idleLabel fun rethrow => .newLabel (d + 1) fun caught hcaught => ?_
  obtain ⟨hdc, hcaught'⟩ := Aims.of_add_none hcaught
  refine (Balanced.enterTry (Aims.add_self _ _ _)).seq ?_
  refine (hb _ (.attempt (fun _ => False) :: ss) (.attempt hs) _ _ d ?_).seq ?_
  · refine (((hF.add done).add_new hcaught _).learn fun _ => .inl).imp fun l hl => ?_
    exact (targets_attempt hl).resolve_left id
  refine (Pushes.emit .leaveTry).same.seq (.newLabel d fun after hafter => ?_)
  obtain ⟨hca, hafter⟩ := Aims.of_add_none hafter
  have hcaught₂ : ((D.add done d).add caught (d + 1)).add after d caught = some (d + 1) := by
    rw [Aims.add_ne _ _ hca, Aims.add_self]
  refine (Balanced.leaves (Aims.add_self _ _ _) (.inl rfl)).seq ?_
  refine (Balanced.mark_closed hcaught₂ (.inl (.inl (.inr rfl)))).seq ?_
  rw [Aims.remove_add_ne _ _ hca, Aims.remove_add _ hcaught]
  refine (balanced_catch param hh hs (((hH.add done).add after).learn fun l hl => .inl (.inl (.inl hl)))).seq
    ((Balanced.place hafter).seq ?_)
  refine (Balanced.place hdone).forget fun l hl => ?_
  rw [targets_or, ← or_assoc] at hl
  exact hl.imp_left fun hl => .inl (hl.imp .inl targets_within)

omit hi in
theorem steady_attemptFinally {block finalizer : Part} (hb : PartSteady block) (hf : PartSteady finalizer) :
    PartSteady (lowerAttempt block none (some finalizer)) := by
  obtain ⟨F, hb⟩ := hb
  obtain ⟨G, hf⟩ := hf
  refine ⟨fun w => F w ∨ G w, fun ctx ss hs D K d hsound => ?_⟩
  have hG := hsound.right
  rw [lowerAttempt_eq]
  refine .newLabel d fun done hdone => .newLabel (d + 1) fun rethrow hrethrow => .idleLabel fun caught => ?_
  obtain ⟨hne, hrethrow'⟩ := Aims.of_add_none hrethrow
  refine (Balanced.enterTry (Aims.add_self _ _ _)).seq ?_
  refine (hb _ (.attempt (targets G ss) :: ss) (.finalized (hf ctx ss hs) hs) _ _ d ?_).seq ?_
  · refine (((hsound.add done).add_new hrethrow _).learn fun _ => .inl).imp fun l hl => ?_
    exact targets_or.2 (targets_attempt hl).symm
  refine (Pushes.emit .leaveTry).same.seq (.newLabel d fun after hafter => ?_)
  refine ((Balanced.goto (Aims.add_self _ _ _)).forget fun _ => .inl).seq (Balanced.pure.seq
    ((Balanced.place hafter).seq ?_))
  refine (balanced_finalizer hf hs hdone hrethrow' hne (.inl (.inr rfl))
    (hG.learn fun l hl => .inl (.inl hl))).forget fun l hl => ?_
  rw [targets_or, ← or_assoc] at hl
  exact hl.imp_left fun hl => hl.imp .inl targets_within

omit hi in
theorem steady_attemptBoth {block body finalizer : Part} (param : Identifier) (hb : PartSteady block)
    (hh : PartSteady body) (hf : PartSteady finalizer) :
    PartSteady (lowerAttempt block (some (param, body)) (some finalizer)) := by
  obtain ⟨F, hb⟩ := hb
  obtain ⟨H, hh⟩ := hh
  obtain ⟨G, hf⟩ := hf
  refine ⟨fun w => (F w ∨ H w) ∨ G w, fun ctx ss hs D K d hsound => ?_⟩
  have hF := hsound.imp fun l (h : targets F ss l ∨ targets G ss l) =>
    targets_or.2 (h.imp_left fun h => targets_or.2 (.inl h))
  have hH := hsound.imp fun l (h : targets H ss l ∨ targets G ss l) =>
    targets_or.2 (h.imp_left fun h => targets_or.2 (.inr h))
  have hs' : Shaped (ctx.within (.attempt (some (finalizer ctx)))).regions (.attempt (targets G ss) :: ss) :=
    .finalized (hf ctx ss hs) hs
  rw [lowerAttempt_eq]
  refine .newLabel d fun done hdone => .newLabel (d + 1 + 1) fun rethrow hrethrow =>
    .newLabel (d + 1) fun caught hcaught => ?_
  obtain ⟨hne, hrethrow'⟩ := Aims.of_add_none hrethrow
  refine (Balanced.enterTry (Aims.add_self _ _ _)).seq ?_
  refine (hb _ _ hs' _ _ d ?_).seq ?_
  · refine ((((hF.add done).add_new hrethrow _).add_new hcaught _).learn fun _ => .inl).imp fun l hl => ?_
    exact (targets_attempt hl).symm
  refine (Pushes.emit .leaveTry).same.seq (.newLabel d fun after hafter => ?_)
  obtain ⟨hca, hafter⟩ := Aims.of_add_none hafter
  refine (Balanced.leaves (Aims.add_self _ _ _) (.inl rfl)).seq ?_
  change Balanced _ _ _ ((mark caught >>= fun _ => emitJump .enterTry rethrow >>= fun _ =>
    lowerCatch param body (ctx.within (.attempt (some (finalizer ctx)))) >>= fun _ => emit .leaveTry) >>= _) _ _ _
  simp only [bind_assoc]
  refine (Balanced.mark_closed (by rw [Aims.add_ne _ _ hca, Aims.add_self]) (.inl (.inl (.inr rfl)))).seq ?_
  rw [Aims.remove_add_ne _ _ hca, Aims.remove_add _ hcaught]
  obtain ⟨hra, -⟩ := Aims.of_add_none hafter
  have hrethrow₂ : ((D.add done d).add rethrow (d + 1 + 1)).add after d rethrow = some (d + 1 + 1) := by
    rw [Aims.add_ne _ _ hra, Aims.add_self]
  refine (Balanced.enterTry hrethrow₂).seq
    ((balanced_catch param hh hs' ?_).seq ?_)
  · refine ((((hH.add done).add_new hrethrow _).add after).learn fun l hl => ?_).imp fun l hl => ?_
    · exact .inl (.inl (.inl (.inl hl)))
    · exact (targets_attempt hl).symm
  refine (Pushes.emit .leaveTry).same.seq ((Balanced.place hafter).seq ?_)
  refine (balanced_finalizer hf hs hdone hrethrow' hne (.inl (.inr rfl)) ?_).forget fun l hl => ?_
  · exact (hsound.right).learn fun l hl => .inl (.inl (.inl (.inl (.inl hl))))
  · rw [targets_or, targets_or, ← or_assoc, ← or_assoc] at hl
    exact hl.imp_left fun hl => hl.imp (fun hl => .inl (.inl (hl.imp .inl targets_within))) targets_within

omit hi in
theorem steady_attempt {block : Part} {handler : Option (Identifier × Part)} {finalizer : Option Part}
    (hsome : handler.isSome ∨ finalizer.isSome) (hb : PartSteady block) (hh : ∀ h, handler = some h → PartSteady h.2)
    (hf : ∀ f, finalizer = some f → PartSteady f) : PartSteady (lowerAttempt block handler finalizer) := by
  match handler, finalizer with
  | some (param, body), none => exact steady_attemptCatch param hb (hh _ rfl)
  | none, some _ => exact steady_attemptFinally hb (hf _ rfl)
  | some (param, body), some _ => exact steady_attemptBoth param hb (hh _ rfl) (hf _ rfl)
  | none, none => simp at hsome

theorem steady_scoped {object : Expr} (ho : object.Holds P) {body : Part} (hb : PartSteady body) :
    PartSteady (lowerScoped inner object body) := by
  obtain ⟨F, hb⟩ := hb
  refine ⟨F, fun ctx ss hs D K d hsound => (pushes_expr hi ctx object ho D K d).seq ?_⟩
  refine (Pushes.emit .pushWithScope).drop.seq ?_
  refine .silent (.onScopes fun _ _ h => by cases h) fun scope => ?_
  exact (hb (ctx.inScope scope) (.scope :: ss) (.scope hs) D K d hsound).seq
    (Pushes.emit .popScope).same

/-! ## Statements -/

omit hi in
theorem outside_nil (F : Way → Prop) : outside F [] .labelled = F := by
  funext w
  refine propext ⟨And.left, fun hw => ⟨hw, ?_⟩⟩
  match w with
  | .jump .breaks none | .jump .continues none | .jump _ (some _) | .leave =>
    simp [Way.refersTo, JumpKind.refersTo]

omit hi in
theorem Balanced.stackDepth {D D' : Aims} {K K' : Label → Prop} {P'} {d : Int} {f : Int → Lowering Unit}
    (hf : Balanced D K (height d) (f d) D' K' P') : Balanced D K (height d) (stackDepth >>= f) D' K' P' := by
  intro st hs hp
  have h := hf st hs hp
  rw [← show st.builder.depth = d from hp] at h
  exact h

omit hi in
theorem balanced_checked {D : Aims} {K : Label → Prop} {d : Int} (check : Bool) (span : Span) :
    Balanced D K (height d) (do
      let after ← stackDepth
      if check && after != d then throw (.internal (.unbalanced span after d))) D K (height d) := by
  refine .stackDepth ?_
  simp only [bne_self_eq_false, Bool.and_false]
  exact .pure

omit hi in
theorem steady_labelled (labels : List String) (span : Span) {p : Part} (hp : PartSteady p) :
    PartSteady (lowerLabelled labels span p) := by
  obtain ⟨F, hp⟩ := hp
  refine ⟨outside F labels .labelled, fun ctx ss hs D K d hsound => .stackDepth ?_⟩
  split
  case isTrue hl =>
    obtain rfl := List.isEmpty_iff.1 hl
    rw [outside_nil] at hsound ⊢
    exact (hp ctx ss hs D K d hsound).seq (balanced_checked _ span)
  case isFalse =>
    refine .newLabel d fun exit hexit => ?_
    refine (hp _ _ (.breakable labels .labelled exit none hs) _ K d fun l hl => ?_).seq
      (((Balanced.place hexit).forget fun l hl => hl.imp_right targets_outside).seq (balanced_checked _ span))
    obtain rfl | h | hl := targets_breakable hl
    · exact .inl (D.add_self _ d)
    · cases h
    · exact hsound.add exit l hl

omit hi in
theorem PartSteady.seq {p q : Part} (hp : PartSteady p) (hq : PartSteady q) :
    PartSteady fun ctx => p ctx >>= fun _ => q ctx := by
  obtain ⟨F, hp⟩ := hp
  obtain ⟨G, hq⟩ := hq
  exact ⟨fun w => F w ∨ G w, fun ctx ss hs => ((hp ctx ss hs).seq (hq ctx ss hs)).congr fun _ => targets_or.symm⟩

omit hi in
theorem steady_nothing : PartSteady fun _ => pure () := steady_of_pushes fun _ => .pure

end

/-! ## Trees -/

section

variable {inner : FunctionLowering} {P : FunctionTree → Prop} (hi : Admits inner P)
include hi

set_option linter.unusedSectionVars false

mutual

/-- **A statement leaves the stack as it found it.** -/
theorem steady_stmt : ∀ s : Stmt, s.Holds P → PartSteady (lowerStmt inner s)
  | ⟨labels, span, kind⟩, h => steady_labelled labels span (steady_kind kind labels h)

theorem steady_kind : ∀ (k : StmtKind) (labels : List String), k.Holds P → PartSteady (lowerKind inner k labels)
  | .var ds, _, h => steady_of_pushes fun ctx => pushes_declarators hi ds ctx h
  | .function _, _, _ => steady_nothing
  | .expression e, _, h => steady_of_pushes fun ctx => pushes_evaluation hi h ctx
  | .block body, _, h => steady_body body h
  | .branch test consequent alternate, _, h =>
    steady_branch hi h.1 (steady_stmt consequent h.2.1) (steady_alternate alternate h.2.2)
  | .loop head body, labels, h => steady_loop hi h.1 labels (steady_stmt body h.2)
  | .switch discriminant cases, labels, h => by
    have hc := steady_cases cases h.2
    exact steady_switch hi h.1 labels (fun c hm => (hc c hm).1) fun c hm => (hc c hm).2
  | .returns value, _, h => steady_return hi h
  | .breaks label, _, _ => steady_jump .breaks _
  | .continues label, _, _ => steady_jump .continues _
  | .throws value, _, h => steady_of_pushes fun ctx => pushes_throw hi h ctx
  | .attempt block handler finalizer, _, h => by
    refine steady_attempt (h.1.imp ?_ ?_) (steady_body block h.2.1) (steady_handler handler h.2.2.1)
      (steady_finalizer finalizer h.2.2.2)
    · intro hs
      obtain ⟨⟨_, _⟩, rfl⟩ := Option.isSome_iff_exists.1 hs
      simp [lowerHandler]
    · intro hs
      obtain ⟨_, rfl⟩ := Option.isSome_iff_exists.1 hs
      simp [lowerFinalizer]
  | .scoped object body, _, h => steady_scoped hi h.1 (steady_stmt body h.2)
  | .empty, _, _ => steady_nothing

theorem steady_alternate : ∀ s : Option Stmt, alternateHolds P s → ∀ p, lowerAlternate inner s = some p → PartSteady p
  | none, _, p, hp => by
    rw [lowerAlternate] at hp
    cases hp
  | some s, h, p, hp => by
    rw [lowerAlternate] at hp
    cases hp
    exact steady_stmt s h

theorem steady_handler : ∀ c : Option CatchClause, handlerHolds P c → ∀ p, lowerHandler inner c = some p → PartSteady p.2
  | none, _, p, hp => by
    rw [lowerHandler] at hp
    cases hp
  | some ⟨_, body⟩, h, p, hp => by
    rw [lowerHandler] at hp
    cases hp
    exact steady_body body h

theorem steady_finalizer : ∀ b : Option (List Stmt), finalizerHolds P b → ∀ p, lowerFinalizer inner b = some p → PartSteady p
  | none, _, p, hp => by
    rw [lowerFinalizer] at hp
    cases hp
  | some body, h, p, hp => by
    rw [lowerFinalizer] at hp
    cases hp
    exact steady_body body h

theorem steady_body : ∀ ss : List Stmt, bodyHolds P ss → PartSteady (lowerBody inner ss)
  | [], _ => by
    have h : lowerBody inner [] = fun _ => pure () := by
      funext ctx
      rw [lowerBody]
    exact h ▸ steady_nothing
  | s :: ss, h => by
    have hs : lowerBody inner (s :: ss) = fun ctx => lowerStmt inner s ctx >>= fun _ => lowerBody inner ss ctx := by
      funext ctx
      rw [lowerBody]
    exact hs ▸ (steady_stmt s h.1).seq (steady_body ss h.2)

theorem steady_cases : ∀ cs : List SwitchCase, casesHold P cs → ∀ c ∈ lowerCases inner cs, optionHolds P c.1 ∧ PartSteady c.2
  | [], _, c, hc => by
    rw [lowerCases] at hc
    cases hc
  | ⟨test, body⟩ :: cs, h, c, hc => by
    rw [lowerCases] at hc
    obtain rfl | hc := List.mem_cons.1 hc
    · exact ⟨h.1, steady_body body h.2.1⟩
    · exact steady_cases cs h.2.2 c hc

end

end

/-! ## Units -/

theorem initialFunctions_hold {P : FunctionTree → Prop} {ds : Array Declaration} (hd : DeclaredHold P ds)
    (entries : Array Variable) : ∀ x ∈ initialFunctions ds entries, P x.2 := by
  intro x hx
  obtain ⟨v, -, hv⟩ := List.mem_filterMap.1 hx
  obtain ⟨i, -, hv⟩ := Option.bind_eq_some_iff.1 hv
  obtain ⟨f, hf, hv⟩ := Option.bind_eq_some_iff.1 hv
  obtain rfl := Option.some.inj hv
  obtain ⟨d, hd', hdf⟩ := Array.mem_filterMap.1 (Array.mem_of_getElem? hf)
  exact hd d hd' f hdf

section

variable {inner : FunctionLowering} {P : FunctionTree → Prop} (hi : Admits inner P)
include hi

theorem pushes_functions (ctx : Context) : ∀ fs : List (String × FunctionTree), (∀ x ∈ fs, P x.2) →
    Pushes 0 (fillFunctions inner ctx fs)
  | [], _ => .pure
  | (name, _) :: fs, h =>
    .of ((pushes_closure hi ctx (h _ (.head _)) false).seq ((Pushes.store ctx name).seq ((Pushes.emit .pop).seq
      (pushes_functions ctx fs fun x hx => h x (.tail _ hx))))) rfl

theorem balanced_entry {ctx : Context} (hr : ctx.regions = []) {fs : List (String × FunctionTree)}
    (hf : ∀ x ∈ fs, P x.2) {body : List Stmt} (hb : bodyHolds P body) :
    Balanced (fun _ => none) (fun _ => False) (height 0) (lowerEntry inner ctx fs body) (fun _ => none)
      (fun _ => False) (height 0) := by
  obtain ⟨F, hbody⟩ := steady_body hi body hb
  have hnone : ∀ l, ¬ targets F [] l := fun _ ⟨_, _, h⟩ => h
  refine (pushes_functions hi ctx fs hf _ _ 0).seq ((hbody ctx [] (hr ▸ .nil) _ _ 0 fun l hl => (hnone l hl).elim).seq ?_)
  have hret : ∀ {K d}, Balanced (fun _ => none) K (height (d + 1)) (emit .ret) (fun _ => none) (fun _ => False)
      (height d) := (Pushes.emit .ret).drop.forget fun _ => False.elim
  cases ctx.completion with
  | some t => exact (Pushes.emitWith .loadLocal (.temporary t) _ _ 0).seq hret
  | none => exact (Pushes.emit .loadUndefined _ _ 0).seq hret

end

theorem finish_ok {b : Builder} {K : Label → Prop} (h : Steady (fun _ => none) K b) : ∃ code, b.finish = .ok code := by
  have hall : ∀ (xs : List (Nat × Label)) (code : Array Instruction), (∀ x ∈ xs, (b.position x.2).isSome) →
      ∃ code', xs.foldlM (Builder.resolve b.labels) code = .ok code' := by
    intro xs
    induction xs with
    | nil => exact fun code _ => ⟨code, rfl⟩
    | cons x xs ih =>
      intro code hx
      obtain ⟨p, hp⟩ := Option.isSome_iff_exists.1 (hx x (.head _))
      rw [Builder.position] at hp
      simp only [List.foldlM_cons, Builder.resolve, hp]
      exact ih _ fun y hy => hx y (.tail _ hy)
  rw [Builder.finish, ← Array.foldlM_toList]
  exact hall _ _ fun x hx => (h.placed x (Array.mem_def.2 hx)).resolve_right (by simp)

theorem lowerUnit_ofProgram {inner : FunctionLowering} {P : FunctionTree → Prop} (hi : Admits inner P) {h : UnitHead}
    {body : List Stmt} (hb : bodyHolds P body) {scopes : ScopeArena} {e : Fault}
    (he : lowerUnit inner h body scopes = .error e) : e.OfProgram := by
  have hregions : h.context.regions = [] := rfl
  have hentry := balanced_entry hi hregions
    (initialFunctions_hold (declarations_hold hb)
      ((declareAll h.root (declarations body) scopes).get h.root).bindings.entries) hb
    ⟨declareAll h.root (declarations body) scopes,
      { Builder.empty with temporaries := if h.context.completion.isSome then 1 else 0 }⟩
    ⟨by simp [Builder.empty], nofun, nofun, nofun, nofun⟩ rfl
  simp only [lowerUnit] at he
  cases hr : lowerEntry inner h.context (initialFunctions (declarations body)
      ((declareAll h.root (declarations body) scopes).get h.root).bindings.entries) body
      ⟨declareAll h.root (declarations body) scopes,
        { Builder.empty with temporaries := if h.context.completion.isSome then 1 else 0 }⟩ with
  | error =>
    rw [hr] at hentry
    simp only [hr, bind, Except.bind] at he
    cases he
    exact hentry
  | ok r =>
    rw [hr] at hentry
    obtain ⟨code, hcode⟩ := finish_ok hentry.1
    simp only [hr, bind, Except.bind, hcode] at he
    cases he

theorem ownNameScope_total (f : FunctionTree) (isExpression : Bool) (parent : ScopeRef) (a : ScopeArena) :
    ∃ p, ownNameScope f isExpression parent a = .ok p := by
  obtain ⟨id, params, body, span⟩ := f
  cases id with
  | none => exact ⟨_, rfl⟩
  | some id =>
    cases isExpression with
    | false => exact ⟨_, rfl⟩
    | true =>
      have hkind : ScopeKind.callee = .catchClause ∨ ScopeKind.callee = .callee := .inr rfl
      obtain ⟨p, hp⟩ := declareCatch_push a (some parent) .static hkind id.name id.span
      simp only [ownNameScope, if_true, hp]
      exact ⟨_, rfl⟩

theorem admits_lowerFunction (o : LoweringOptions) : ∀ n, Admits (lowerFunction o n) (FunctionTree.Within n)
  | 0 => fun _ hf => hf.elim
  | n + 1 => by
    intro f hf isExpression scope strict a e h
    obtain ⟨p, hp⟩ := ownNameScope_total f isExpression scope a
    simp only [lowerFunction, hp] at h
    exact lowerUnit_ofProgram (admits_lowerFunction o n) hf h

theorem lowerExpr_depth {inner : FunctionLowering} {P : FunctionTree → Prop} (hi : Admits inner P) {ctx : Context}
    {e : Expr} (he : e.Holds P) {st st' : State}
    (hst : ∀ x ∈ st.builder.fixups, x.2.index < st.builder.labels.size)
    (h : lowerExpr inner ctx e st = .ok ((), st')) : st'.builder.depth = st.builder.depth + 1 := by
  -- every label of the builder is taken to be meant for the height known of it
  have hsteady : Steady (fun l => if l.index < st.builder.labels.size then some ((st.builder.heightAt l).getD 0) else none)
      (fun _ => False) st.builder := by
    refine ⟨fun x hx => .inr (by simp [hst x hx]), fun {l c} hl => ?_, fun {l c c'} hl hc => ?_, nofun, nofun⟩
    · split at hl
      · assumption
      · cases hl
    · split at hl
      · simpa [hc] using hl
      · cases hl
  have hpush := pushes_expr hi ctx e he _ _ st.builder.depth st hsteady rfl
  rw [h] at hpush
  exact hpush.2

/-- **Lowering a well-formed program fails only for a fault in the program.** -/
theorem lowerProgram_ofProgram {o : LoweringOptions} {kind : UnitKind} {scopeKind : ScopeKind} {strict : Bool}
    {p : Program} (hp : bodyHolds FunctionTree.Guarded p.body) {f : Fault}
    (h : lowerProgram o kind scopeKind strict p = .error f) : f.OfProgram := by
  simp only [lowerProgram, bind, Except.bind] at h
  split at h
  case h_1 e hu =>
    cases h
    exact lowerUnit_ofProgram (admits_lowerFunction o _) (bodyHolds_within hp) hu
  case h_2 => cases h

end ScriptEngine.Lowering
