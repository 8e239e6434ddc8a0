/-
Statements lay out their code. Main statement: `lays_body`.
-/
import ScriptEngine.Proofs.Lowering.Expression

namespace ScriptEngine.Lowering

open Layout (Point Code Setting)

variable {B : Builder} {o : LoweringOptions} {a : ScopeArena} {S S' : Label → Prop} {ctx : Context} {c : Setting}

/-- Wherever a part of a program stands, its code is laid out. -/
def PartLays (B : Builder) (o : LoweringOptions) (p : Part) (P : Layout.Part) : Prop :=
  ∀ ⦃a ctx c S⦄, ctx.options = o → Fits B a ctx c → Lays B a S (p ctx) S (P c)

inductive OptionLays (B : Builder) (o : LoweringOptions) : Option Part → Option Layout.Part → Prop
  | none : OptionLays B o none none
  | some {p P} : PartLays B o p P → OptionLays B o (some p) (some P)

inductive HandlerLays (B : Builder) (o : LoweringOptions) :
    Option (Identifier × Part) → Option (Identifier × Layout.Part) → Prop
  | none : HandlerLays B o none none
  | some {id p P} : PartLays B o p P → HandlerLays B o (some (id, p)) (some (id, P))

namespace Fits

theorem mono (h : Fits B a ctx c) {a' : ScopeArena} (ha : a.Extends a') : Fits B a' ctx c :=
  ⟨h.unit, h.options, h.sees.mono ha, h.strict, h.completion, h.regions.mono ha⟩

theorem within (h : Fits B a ctx c) {r r'} (hr : RegionFits B a r r') : Fits B a (ctx.within r) (c.within r') :=
  ⟨h.unit, h.options, h.sees, h.strict, h.completion, .cons hr h.regions⟩

theorem inScope (h : Fits B a ctx c) {a' : ScopeArena} (ha : a.Extends a') {s env} (hs : a'.Sees s env) :
    Fits B a' (ctx.inScope s) (c.inScope env) :=
  ⟨h.unit, h.options, hs, h.strict, h.completion, .cons .scope (h.regions.mono ha)⟩

end Fits

/-! ## Jumps -/

theorem lays_jump (hc : Finished B c.unit) (jump : JumpKind) (label : Option String) {rs rs'}
    (hr : RegionsFit B a rs rs') {l left} (hl : jump.target label rs = .ok (l, left)) :
    Lays B a S (do
      unwind left
      emitJump .jump l) S (Layout.jumpAt c jump label rs') := by
  induction hr generalizing l left with
  | nil => cases hl
  | cons hr hrs ih =>
    -- a construct that the jump leaves is the first of those that are unwound
    have keep : ∀ {r rs}, JumpKind.target.keep r (jump.target label rs) = .ok (l, left) →
        ∃ left', left = r :: left' ∧ jump.target label rs = .ok (l, left') := by
      intro r rs hk
      cases ht : jump.target label rs with
      | error e =>
        rw [ht] at hk
        cases hk
      | ok p =>
        rw [ht] at hk
        cases hk
        exact ⟨p.2, rfl, rfl⟩
    cases hr with
    | breakable labels kind breakTo continueTo =>
      simp only [JumpKind.target] at hl
      simp only [Layout.jumpAt]
      split at hl
      next href =>
        rw [if_pos href]
        cases jump with
        | breaks =>
          cases hl
          simpa [unwind] using Lays.emitJump hc rfl .jump l
        | continues =>
          cases continueTo with
          | none => cases hl
          | some continueTo =>
            cases hl
            simpa [unwind] using Lays.emitJump hc rfl .jump l
      next href =>
        rw [if_neg href]
        obtain ⟨left', rfl, ht⟩ := keep hl
        rw [unwind]
        exact ih ht
    | scope =>
      obtain ⟨left', rfl, ht⟩ := keep hl
      simp only [unwind, bind_assoc]
      exact (Lays.emit hc rfl _).seq (ih ht)
    | plain =>
      obtain ⟨left', rfl, ht⟩ := keep hl
      simp only [unwind, bind_assoc, Option.getD_none, pure_bind]
      exact (Lays.emit hc rfl _).seq (ih ht).pure_seq
    | finalized hx =>
      obtain ⟨left', rfl, ht⟩ := keep hl
      simp only [unwind, bind_assoc, Option.getD_some]
      exact (Lays.emit hc rfl _).seq ((hx S).seq (ih ht))

theorem lays_lowerJump (hc : Fits B a ctx c) (jump : JumpKind) (label : Option String) :
    Lays B a S (lowerJump jump label ctx) S (Layout.jumpAt c jump label c.regions) := by
  intro st st' ha hok hp h
  obtain ⟨⟨l, left⟩, mid, h1, h2⟩ := bind_ok h
  cases ht : jump.target label ctx.regions with
  | error e =>
    rw [ht] at h1
    cases h1
  | ok p =>
    rw [ht] at h1
    cases h1
    exact lays_jump hc.unit jump label hc.regions ht _ st' ha hok hp h2

theorem lays_returnAt (hc : Finished B c.unit) (value : Nat) {rs rs'} (hr : RegionsFit B a rs rs') :
    Lays B a S (do
      unwind rs
      emitWith .loadLocal (.temporary value)
      emit .ret) S (Layout.returnAt c value rs') := by
  induction hr with
  | nil =>
    simp only [unwind, pure_bind]
    exact (Lays.emitWith hc rfl _ _).seq (Lays.emit hc rfl _)
  | cons hr hrs ih =>
    cases hr with
    | breakable => exact ih
    | scope =>
      simp only [unwind, bind_assoc]
      exact (Lays.emit hc rfl _).seq ih
    | plain =>
      simp only [unwind, bind_assoc, Option.getD_none, pure_bind]
      exact (Lays.emit hc rfl _).seq ih.pure_seq
    | finalized hx =>
      simp only [unwind, bind_assoc, Option.getD_some]
      exact (Lays.emit hc rfl _).seq ((hx S).seq ih)

theorem RegionsFit.any_isFinalized {rs rs'} (h : RegionsFit B a rs rs') :
    rs'.any Layout.Region.isFinalized = rs.any Region.isFinalized := by
  induction h with
  | nil => rfl
  | cons hr _ ih =>
    rw [List.any_cons, List.any_cons, ih]
    cases hr <;> rfl

theorem lays_returnTop (hc : Fits B a ctx c) : Lays B a S (returnTop ctx) S (Layout.returnTopAt c) := by
  unfold returnTop Layout.returnTopAt
  rw [hc.regions.any_isFinalized]
  split
  · refine Lays.newTemporary fun value => (Lays.emitWith hc.unit rfl _ _).seq ?_
    exact lays_returnAt hc.unit value hc.regions
  · exact Lays.emit hc.unit rfl _

/-! ## Simple statements -/

variable {inner : FunctionLowering}

theorem lays_declarators (hc : Fits B a ctx c) (hin : InnerLays ctx.options inner) : ∀ ds : List Declarator,
    Lays B a S (lowerDeclarators inner ds ctx) S (Layout.declaratorsAt c ds)
  | [] => Lays.pure
  | ⟨_, none⟩ :: ds => lays_declarators hc hin ds
  | ⟨id, some init⟩ :: ds =>
    (lays_expr hc hin init).seq ((Lays.store hc id.name).seq
      ((Lays.emit hc.unit rfl _).seq (lays_declarators hc hin ds)))

theorem lays_evaluation (hc : Fits B a ctx c) (hin : InnerLays ctx.options inner) (e : Expr) :
    Lays B a S (lowerEvaluation inner e ctx) S (Layout.evaluationAt c e) := by
  refine (lays_expr hc hin e).seq ?_
  rw [hc.completion]
  cases ctx.completion with
  | some t => exact Lays.emitWith hc.unit rfl _ _
  | none => exact Lays.emit hc.unit rfl _

theorem lays_branch (ho : ctx.options = o) (hc : Fits B a ctx c) (hin : InnerLays ctx.options inner)
    (test : Expr) {consequent P alternate alternate'} (hp : PartLays B o consequent P)
    (ha : OptionLays B o alternate alternate') :
    Lays B a S (lowerBranch inner test consequent alternate ctx) S (Layout.branchAt c test P alternate') := by
  refine Lays.newLabel fun otherwise hnew => (lays_expr hc hin test).seq
    ((Lays.emitJump hc.unit rfl _ otherwise).seq ((hp ho hc).seq ?_))
  cases ha with
  | none => exact (Lays.mark (.inl rfl)).pending (by grind)
  | some hq =>
    refine Lays.newLabel fun done hnew' => (Lays.emitJump hc.unit rfl _ done).seq
      ((Lays.mark (.inr (.inl rfl))).seq ((hq ho hc).seq ((Lays.mark ?_).pending ?_)))
    · grind
    · grind

/-! ## Loops -/

theorem lays_loopInit (hc : Fits B a ctx c) (hin : InnerLays ctx.options inner) (head : LoopHead) (keys : Nat) :
    Lays B a S (lowerLoopInit inner head keys ctx) S (Layout.loopInitAt c head keys) := by
  cases head with
  | counted init test update =>
    cases init with
    | none => exact Lays.pure
    | some init =>
      cases init with
      | declare ds => exact lays_declarators hc hin ds
      | evaluate e => exact (lays_expr hc hin e).seq (Lays.emit hc.unit rfl _)
  | whileTest test => exact Lays.pure
  | doWhile test => exact Lays.pure
  | forIn target object =>
    cases target with
    | declare d =>
      exact (lays_declarators hc hin [d]).seq ((lays_expr hc hin object).seq (Lays.emitWith hc.unit rfl _ _))
    | assign e => exact (lays_expr hc hin object).seq (Lays.emitWith hc.unit rfl _ _)

theorem lays_loopCondition (hc : Fits B a ctx c) (hin : InnerLays ctx.options inner) (head : LoopHead)
    (keys : Nat) :
    Lays B a S (lowerLoopCondition inner head keys ctx) S (Layout.loopConditionAt c head keys) := by
  cases head with
  | counted init test update =>
    cases test with
    | none => exact Lays.emit hc.unit rfl _
    | some test => exact lays_expr hc hin test
  | whileTest test => exact lays_expr hc hin test
  | doWhile test => exact lays_expr hc hin test
  | forIn target object => exact Lays.emitWith hc.unit rfl _ _

theorem lays_loopTest (hc : Fits B a ctx c) (hin : InnerLays ctx.options inner) (head : LoopHead)
    (keys : Nat) (exit : Label) :
    Lays B a S (lowerLoopTest inner head keys exit ctx) S (Layout.loopTestAt c head keys (B.target exit)) := by
  have hcond := (lays_loopCondition (S := S) hc hin head keys).seq (y := fun _ => emitJump .jumpIfFalse exit)
    (Lays.emitJump hc.unit rfl _ exit)
  cases head with
  | counted init test update =>
    cases test with
    | none => exact Lays.pure
    | some test => exact hcond
  | whileTest test => exact hcond
  | doWhile test => exact hcond
  | forIn target object => exact hcond

theorem lays_round (ho : ctx.options = o) (hc : Fits B a ctx c) (hin : InnerLays ctx.options inner)
    (head : LoopHead) (keys : Nat) (labels : List String) {body P} (hp : PartLays B o body P)
    (breakTo continueTo : Label) :
    Lays B a S (lowerRound inner head keys labels body breakTo continueTo ctx) S
      (Layout.roundAt c head keys labels P (B.target breakTo) (B.target continueTo)) := by
  have hbody : ∀ {S}, Lays B a S (body (ctx.within (.breakable labels .loop breakTo (some continueTo)))) S
      (P (c.within (.breakable labels .loop (B.target breakTo) (some (B.target continueTo))))) :=
    hp ho (hc.within (.breakable labels .loop breakTo (some continueTo)))
  cases head with
  | counted init test update => exact hbody.pure_seq
  | whileTest test => exact hbody.pure_seq
  | doWhile test => exact hbody.pure_seq
  | forIn target object =>
    cases target with
    | declare d =>
      simp only [lowerRound]
      rw [← bind_assoc, ← bind_assoc, bind_assoc (emitWith _ _)]
      exact ((Lays.emitWith hc.unit rfl _ _).seq ((Lays.store hc _).seq (Lays.emit hc.unit rfl _))).seq hbody
    | assign e =>
      simp only [lowerRound]
      rw [← bind_assoc, ← bind_assoc, bind_assoc (emitWith _ _)]
      exact ((Lays.emitWith hc.unit rfl _ _).seq ((lays_assignTop hc hin e).seq
        (Lays.emit hc.unit rfl _))).seq hbody

theorem lays_loopUpdate (hc : Fits B a ctx c) (hin : InnerLays ctx.options inner) (head : LoopHead) :
    Lays B a S (lowerLoopUpdate inner head ctx) S (Layout.loopUpdateAt c head) := by
  cases head with
  | counted init test update =>
    cases update with
    | none => exact Lays.pure
    | some update => exact (lays_expr hc hin update).seq (Lays.emit hc.unit rfl _)
  | whileTest test => exact Lays.pure
  | doWhile test => exact Lays.pure
  | forIn target object => exact Lays.pure

theorem Lays.unless {b : Bool} {x y : Lowering Unit} {C D : Code} (hx : Lays B a S x S C)
    (hy : Lays B a S y S' D) :
    Lays B a S (if b = true then y else x >>= fun _ => y) S' ((if b then .nil else C) ++ D) := by
  cases b with
  | true => exact hy.pure_seq
  | false => exact hx.seq hy

theorem lays_rotatedLoop (ho : ctx.options = o) (hc : Fits B a ctx c) (hin : InnerLays ctx.options inner)
    (head : LoopHead) (keys : Nat) (labels : List String) {body P} (hp : PartLays B o body P) :
    Lays B a S (lowerRotatedLoop inner head keys labels body ctx) S
      (Layout.rotatedLoopAt c head keys labels P) := by
  refine Lays.newLabel fun done hdone => Lays.newLabel fun firstContinue hfirst =>
    Lays.unless (lays_loopTest hc hin head keys done) ?_
  refine (lays_round ho hc hin head keys labels hp done firstContinue).seq ((Lays.mark (.inl rfl)).seq
    ((lays_loopUpdate hc hin head).seq ?_))
  refine Lays.newLabel fun top htop => Lays.newLabel fun laterDone hdone' =>
    Lays.newLabel fun laterContinue hcont => (Lays.mark (.inr (.inr (.inl rfl)))).seq
      ((lays_loopTest hc hin head keys laterDone).seq
        ((lays_round ho hc hin head keys labels hp laterDone laterContinue).seq ((Lays.mark ?_).seq
          ((lays_loopUpdate hc hin head).seq ((Lays.emitJump hc.unit rfl _ top).seq
            ((Lays.mark ?_).seq ((Lays.mark ?_).pending ?_)))))))
  all_goals grind

theorem lays_simpleLoop (ho : ctx.options = o) (hc : Fits B a ctx c) (hin : InnerLays ctx.options inner)
    (head : LoopHead) (keys : Nat) (labels : List String) {body P} (hp : PartLays B o body P) :
    Lays B a S (lowerSimpleLoop inner head keys labels body ctx) S
      (Layout.simpleLoopAt c head keys labels P) := by
  refine Lays.newLabel fun top htop => Lays.newLabel fun start hstart => Lays.newLabel fun next hnext =>
    Lays.newLabel fun done hdone => (Lays.mark (by grind)).seq
      (Lays.unless (lays_loopTest hc hin head keys done) ?_)
  refine (Lays.mark (by grind)).seq ((lays_round ho hc hin head keys labels hp done next).seq
    ((Lays.mark (by grind)).seq ((lays_loopUpdate hc hin head).seq ?_)))
  cases hlast : testsLast head with
  | true =>
    rw [if_pos rfl, if_pos rfl, ← bind_assoc]
    exact ((lays_loopCondition hc hin head keys).seq (Lays.emitJump hc.unit rfl _ start)).seq
      ((Lays.mark (by grind)).pending (by grind))
  | false =>
    exact (Lays.emitJump hc.unit rfl _ top).seq ((Lays.mark (by grind)).pending (by grind))

theorem lays_loop (ho : ctx.options = o) (hc : Fits B a ctx c) (hin : InnerLays ctx.options inner)
    (head : LoopHead) (labels : List String) {body P} (hp : PartLays B o body P) :
    Lays B a S (lowerLoop inner head labels body ctx) S (Layout.loopAt c head labels P) := by
  have h : ∀ keys, Lays B a S (do
      lowerLoopInit inner head keys ctx
      if ctx.options.loopRotation then lowerRotatedLoop inner head keys labels body ctx
      else lowerSimpleLoop inner head keys labels body ctx) S
      (Layout.loopInitAt c head keys ++
        if c.options.loopRotation then Layout.rotatedLoopAt c head keys labels P
        else Layout.simpleLoopAt c head keys labels P) := by
    intro keys
    refine (lays_loopInit hc hin head keys).seq ?_
    rw [hc.options]
    split
    · exact lays_rotatedLoop ho hc hin head keys labels hp
    · exact lays_simpleLoop ho hc hin head keys labels hp
  cases head with
  | counted init test update => exact h 0
  | whileTest test => exact h 0
  | doWhile test => exact h 0
  | forIn target object => exact Lays.newTemporary h

/-! ## Switch -/

inductive ClausesLay (B : Builder) (o : LoweringOptions) : List Clause → List Layout.Clause → Prop
  | nil : ClausesLay B o [] []
  | cons {test p P l cs cs'} : PartLays B o p P → ClausesLay B o cs cs' →
    ClausesLay B o (⟨test, p, l⟩ :: cs) (⟨test, P, B.target l⟩ :: cs')

inductive CasesLay (B : Builder) (o : LoweringOptions) :
    List (Option Expr × Part) → List (Option Expr × Layout.Part) → Prop
  | nil : CasesLay B o [] []
  | cons {test p P cs cs'} : PartLays B o p P → CasesLay B o cs cs' →
    CasesLay B o ((test, p) :: cs) ((test, P) :: cs')

def labelsOf (cs : List Clause) (l : Label) : Prop := ∃ k ∈ cs, k.label = l

theorem lays_labelClauses {cases cases'} (hcs : CasesLay B o cases cases') {f : List Clause → Lowering Unit}
    {C : List Layout.Clause → Code}
    (hf : ∀ cs cs', ClausesLay B o cs cs' → (cs.map Clause.label).Nodup → (∀ l, labelsOf cs l → ¬ S l) →
      Lays B a (fun l => labelsOf cs l ∨ S l) (f cs) S' (C cs')) :
    Lays B a S (labelClauses cases >>= f) S'
      fun p q => ∃ cs', cs'.map (fun k => (k.test, k.body)) = cases' ∧ C cs' p q := by
  induction hcs generalizing S f C with
  | nil =>
    have h := hf [] [] .nil List.nodup_nil (by simp [labelsOf])
    refine Lays.weaken (x := labelClauses [] >>= f) ?_ (fun _ h => h) fun p q h => ⟨[], rfl, h⟩
    simpa [labelClauses, labelsOf] using h
  | @cons test p P cs cs' hp _ ih =>
    have hunfold : labelClauses ((test, p) :: cs) >>= f =
        newLabel >>= fun l => labelClauses cs >>= fun rest => f (⟨test, p, l⟩ :: rest) := by
      simp [labelClauses]
    rw [hunfold]
    refine (Lays.newLabel (C := fun pos p q => ∃ ks, ks.map (fun k => (k.test, k.body)) = cs' ∧
      C (⟨test, P, pos⟩ :: ks) p q) fun l hl => ih fun ks ks' hks hnd hdis => ?_).weaken (fun _ h => h) ?_
    · refine (hf _ _ (.cons hp hks) ?_ ?_).strengthen ?_
      · refine List.nodup_cons.2 ⟨fun hm => ?_, hnd⟩
        obtain ⟨k, hk, hkl⟩ := List.mem_map.1 hm
        exact hdis l ⟨k, hk, hkl⟩ (.inl rfl)
      · rintro l' ⟨k, hk, rfl⟩
        rcases List.mem_cons.1 hk with rfl | hk
        · exact hl
        · exact fun hs => hdis k.label ⟨k, hk, rfl⟩ (.inr hs)
      · rintro l' (⟨k, hk, rfl⟩ | hs)
        · rcases List.mem_cons.1 hk with rfl | hk
          · exact .inr (.inl rfl)
          · exact .inl ⟨k, hk, rfl⟩
        · exact .inr (.inr hs)
    · rintro p q ⟨pos, ks, rfl, h⟩
      exact ⟨_, rfl, h⟩

theorem lays_clauseTests (hc : Fits B a ctx c) (hin : InnerLays ctx.options inner) (d : Nat) {cs cs'}
    (hcs : ClausesLay B o cs cs') :
    Lays B a S (lowerClauseTests inner ctx d cs) S (Layout.clauseTestsAt c d cs') := by
  induction hcs with
  | nil => exact Lays.pure
  | @cons test p P l cs cs' _ _ ih =>
    cases test with
    | none => exact ih
    | some test =>
      exact (Lays.emitWith hc.unit rfl _ _).seq ((lays_expr hc hin test).seq ((Lays.emit hc.unit rfl _).seq
        ((Lays.emitJump hc.unit rfl _ l).seq ih)))

theorem lays_clauseBodies (ho : ctx.options = o) (hc : Fits B a ctx c) {cs cs'} (hcs : ClausesLay B o cs cs')
    (hnd : (cs.map Clause.label).Nodup) (hdis : ∀ l, labelsOf cs l → ¬ S l) :
    Lays B a (fun l => labelsOf cs l ∨ S l) (lowerClauseBodies ctx cs) S (Layout.clauseBodiesAt c cs') := by
  induction hcs with
  | nil => exact Lays.pure.pending fun _ h => .inr h
  | @cons test p P l cs cs' hp _ ih =>
    have hnd' := List.nodup_cons.1 hnd
    have hl : ∀ {l'}, labelsOf cs l' → l' ≠ l := by
      rintro _ ⟨k, hk, rfl⟩ rfl
      exact hnd'.1 (List.mem_map.2 ⟨k, hk, rfl⟩)
    have hcons : ∀ {l'}, labelsOf cs l' → labelsOf (⟨test, p, l⟩ :: cs) l' :=
      fun ⟨k, hk, h⟩ => ⟨k, List.mem_cons_of_mem _ hk, h⟩
    have hself : labelsOf (⟨test, p, l⟩ :: cs) l := ⟨_, List.mem_cons_self, rfl⟩
    refine (Lays.mark (.inl hself)).seq ((hp ho hc).seq ((ih hnd'.2 fun l' h => ?_).strengthen ?_))
    · exact hdis l' (hcons h)
    · rintro l' (h | h)
      · exact ⟨hl h, .inl (hcons h)⟩
      · refine ⟨?_, .inr h⟩
        rintro rfl
        exact hdis _ hself h

theorem target_default {cs cs'} (hcs : ClausesLay B o cs cs') (done : Label) :
    B.target (((cs.reverse.find? fun k => k.test.isNone).map Clause.label).getD done) =
      Layout.defaultPosition (B.target done) cs' := by
  induction hcs generalizing done with
  | nil => rfl
  | @cons test p P l cs cs' _ _ ih =>
    have hstep : (((⟨test, p, l⟩ :: cs).reverse.find? fun k => k.test.isNone).map Clause.label).getD done =
        ((cs.reverse.find? fun k => k.test.isNone).map Clause.label).getD (if test.isNone then l else done) := by
      rw [List.reverse_cons, List.find?_append]
      cases cs.reverse.find? fun k => k.test.isNone with
      | some k => rfl
      | none => cases test <;> rfl
    rw [hstep, ih]
    cases test <;> rfl

theorem lays_switch (ho : ctx.options = o) (hc : Fits B a ctx c) (hin : InnerLays ctx.options inner)
    (discriminant : Expr) (labels : List String) {cases cases'} (hcs : CasesLay B o cases cases') :
    Lays B a S (lowerSwitch inner discriminant labels cases ctx) S
      (Layout.switchAt c discriminant labels cases') := by
  refine Lays.newTemporary fun value => (lays_expr hc hin discriminant).seq
    ((Lays.emitWith hc.unit rfl _ _).seq (Lays.newLabel fun done hdone => ?_))
  refine lays_labelClauses (C := fun ks => Layout.clauseTestsAt c value ks ++
    (Layout.jump c .jump (Layout.defaultPosition (B.target done) ks) ++
      (Layout.clauseBodiesAt (c.within (.breakable labels .switch (B.target done) none)) ks ++
        .mark (B.target done)))) hcs fun ks ks' hks hnd hdis => ?_
  refine (lays_clauseTests hc hin value hks).seq (Lays.seq ?_ (Lays.seq
    (lays_clauseBodies (by exact ho) (hc.within (.breakable labels .switch done none)) hks hnd hdis)
    ((Lays.mark (S := fun l => l = done ∨ S l) (.inl rfl)).pending (by grind))))
  rw [← target_default hks]
  exact Lays.emitJump hc.unit rfl _ _

/-! ## Scopes and exceptions -/

theorem Lays.bindingScope {parent env} (hs : a.Sees parent env) (id : Identifier)
    {f : ScopeRef → Lowering Unit} {C : Code}
    (hf : ∀ a' s, a.Extends a' → a'.Sees s (#[id.name] :: env) → Lays B a' S (f s) S' C) :
    Lays B a S (bindingScope parent .catchClause id >>= f) S' C := by
  intro st st' ha hok hp h
  obtain ⟨s, mid, h1, h2⟩ := bind_ok h
  obtain ⟨h1, hb⟩ := onScopes_ok h1
  cases hd : (st.scopes.push (some parent) .catchClause .static).2.declareCatch
      (st.scopes.push (some parent) .catchClause .static).1 id.name id.span with
  | error e =>
    simp only [hd] at h1
    cases h1
  | ok p =>
    simp only [hd] at h1
    injection h1 with h1
    injection h1 with h1 h1'
    subst h1
    have hadds := (ScopeArena.adds_push st.scopes (some parent) .catchClause .static).declareCatch rfl hd
    have hsees := hadds.sees (hs.mono ha) rfl rfl (BindingTable.ok_empty.declare id.name none id.span)
    rw [BindingTable.names_declare_empty] at hsees
    have hext : st.scopes.Extends mid.scopes := h1' ▸ hadds.grows
    have l := hf mid.scopes _ (ha.trans hext) (h1' ▸ hsees) mid st' (.refl _) (hb ▸ hok) (hb ▸ hp) h2
    exact ⟨hext.trans l.scopes, l.ok, l.pending, hb ▸ l.sub, hb ▸ l.settles, hb ▸ l.gains,
      fun hB => hb ▸ l.code hB⟩

theorem Lays.withScope {parent : ScopeRef} {f : ScopeRef → Lowering Unit} {C : Code}
    (hf : ∀ a' s, a.Extends a' → a'.Sees s [] → Lays B a' S (f s) S' C) :
    Lays B a S (withScope parent >>= f) S' C := by
  intro st st' ha hok hp h
  obtain ⟨s, mid, h1, h2⟩ := bind_ok h
  cases h1
  have hadds := ScopeArena.adds_push st.scopes (some parent) .withObject .dynamic
  have l := hf _ _ (ha.trans hadds.grows) (hadds.sees_nil rfl) ⟨_, st.builder⟩ st' (.refl _) hok hp h2
  exact ⟨hadds.grows.trans l.scopes, l.ok, l.pending, l.sub, l.settles, l.gains, l.code⟩

theorem lays_catch (ho : ctx.options = o) (hc : Fits B a ctx c) (param : Identifier) {body P}
    (hp : PartLays B o body P) :
    Lays B a S (lowerCatch param body ctx) S (Layout.catchAt c param P) := by
  refine Lays.bindingScope hc.sees param fun a' s ha hs => ?_
  have hbody : Lays B a' S (body (ctx.inScope s)) S (P (c.inScope (#[param.name] :: c.env))) :=
    hp ho (hc.inScope ha hs)
  exact Lays.named_seq (hc.mono ha) _ _ (hbody.seq (Lays.emit hc.unit rfl _))

theorem lays_scoped (ho : ctx.options = o) (hc : Fits B a ctx c) (hin : InnerLays ctx.options inner)
    (object : Expr) {body P} (hp : PartLays B o body P) :
    Lays B a S (lowerScoped inner object body ctx) S (Layout.scopedAt c object P) := by
  refine (lays_expr hc hin object).seq ((Lays.emit hc.unit rfl _).seq
    (Lays.withScope fun a' s ha hs => ?_))
  have hbody : Lays B a' S (body (ctx.inScope s)) S (P (c.inScope [])) := hp ho (hc.inScope ha hs)
  exact hbody.seq (Lays.emit hc.unit rfl _)

theorem lays_handler (ho : ctx.options = o) (hc : Fits B a ctx c) {handler handler'}
    (hh : HandlerLays B o handler handler') {region region'} (hro : region.options = o)
    (hr : Fits B a region region') (finalized : Bool) {rethrow caught : Label}
    (hcaught : S caught) :
    Lays B a S (lowerHandlerCode handler finalized region ctx rethrow caught)
      (fun l => l ≠ caught ∧ S l)
      (Layout.handlerAt c handler' finalized region' (B.target rethrow) (B.target caught)) := by
  cases hh with
  | none => exact Lays.pure.pending fun _ h => h.2
  | some hp =>
    refine (Lays.mark hcaught).seq ?_
    cases finalized with
    | true =>
      refine (Lays.emitJump hc.unit rfl _ rethrow).seq ((lays_catch hro hr _ hp).seq ?_)
      exact Lays.emit hc.unit rfl _
    | false => exact lays_catch ho hc _ hp

theorem lays_finalizer (ho : ctx.options = o) (hc : Fits B a ctx c) {finalizer finalizer'}
    (hf : OptionLays B o finalizer finalizer') {done rethrow : Label} (hre : S rethrow) :
    Lays B a S (lowerFinalizerCode finalizer ctx done rethrow) (fun l => l ≠ rethrow ∧ S l)
      (Layout.finalizerAt c finalizer' (B.target done) (B.target rethrow)) := by
  cases hf with
  | none => exact Lays.pure.pending fun _ h => h.2
  | some hp =>
    exact (hp ho hc).seq ((Lays.emitJump hc.unit rfl _ done).seq ((Lays.mark hre).seq
      (Lays.newTemporary fun exception => (Lays.emitWith hc.unit rfl _ _).seq ((hp ho hc).seq
        ((Lays.emitWith hc.unit rfl _ _).seq (Lays.emit hc.unit rfl _))))))

theorem lays_attemptAlone (ho : ctx.options = o) (hc : Fits B a ctx c) {block P} (hb : PartLays B o block P) :
    Lays B a S (lowerAttempt block none none ctx) S .never := by
  rw [lowerAttempt_eq]
  refine (Lays.newLabel (C := fun _ => .never) fun done hdone => ?_).weaken (fun _ h => h) fun _ _ h => h.elim fun _ h => h
  let jumps : Label → Code := fun l => .label fun _ =>
    Code.seq (fun p _ => (p.pc, l) ∈ B.fixups) fun _ _ => True
  refine Lays.unplaced (C := jumps) hc.unit (fun l h => .inr h) (fun rethrow hre => Lays.newLabel fun caught hca =>
    (Lays.emitJump_fixup _ rethrow).seq ?_) ?_
  · refine Lays.weaken ((hb (by exact ho) (hc.within .plain)).seq ((Lays.emit hc.unit rfl _).seq
      (Lays.newLabel (C := fun _ _ _ => True) fun after haf => ?_))) (fun _ h => h) fun _ _ _ => trivial
    exact Lays.weaken ((Lays.emitJump hc.unit rfl _ after).seq (Lays.pure.seq ((Lays.mark (Or.inl rfl)).seq
      (Lays.pure.seq (Lays.mark (by grind)))))) (by grind) fun _ _ _ => trivial
  · rintro l p q ⟨_, m, h, -⟩
    exact ⟨_, h⟩

theorem lays_attempt (ho : ctx.options = o) (hc : Fits B a ctx c) {block P handler handler' finalizer finalizer'}
    (hb : PartLays B o block P) (hh : HandlerLays B o handler handler') (hf : OptionLays B o finalizer finalizer') :
    Lays B a S (lowerAttempt block handler finalizer ctx) S (Layout.attemptAt c P handler' finalizer') := by
  have hregion : RegionFits B a (.attempt (finalizer.map fun f => f ctx))
      (.attempt (finalizer'.map fun f => f c)) := by
    cases hf with
    | none => exact .plain
    | some hp => exact .finalized fun S => hp ho hc
  have hsome : handler'.isSome = handler.isSome := by cases hh <;> rfl
  have hfin : finalizer'.isSome = finalizer.isSome := by cases hf <;> rfl
  have hw := hc.within hregion
  rw [Layout.attemptAt]
  split
  · rename_i halone
    rw [← Option.not_isSome, ← Option.not_isSome, hsome, hfin] at halone
    cases hh with
    | some _ => cases halone
    | none =>
      cases hf with
      | some _ => cases halone
      | none => exact lays_attemptAlone ho hc hb
  rw [lowerAttempt_eq, hsome, hfin]
  refine Lays.newLabel fun done hdone => Lays.newLabel fun rethrow hre => Lays.newLabel fun caught hca => ?_
  rw [← apply_ite B.target]
  refine (Lays.emitJump hc.unit rfl _ _).seq ((hb (by exact ho) hw).seq ((Lays.emit hc.unit rfl _).seq
    (Lays.newLabel fun after haf => (Lays.emitJump hc.unit rfl _ after).seq ?_)))
  refine (lays_handler ho hc hh (by exact ho) hw finalizer.isSome (by grind)).seq
    ((Lays.mark ?_).seq ((lays_finalizer ho hc hf ?_).seq ((Lays.mark ?_).pending ?_)))
  all_goals grind

/-! ## Statements -/

theorem lays_return (hc : Fits B a ctx c) (hin : InnerLays ctx.options inner) (value : Option Expr) :
    Lays B a S (lowerReturn inner value ctx) S (Layout.returnStmtAt c value) := by
  by_cases hk : (ctx.kind == .function) = true
  · simp only [lowerReturn, if_pos hk]
    cases value with
    | some e => exact (lays_expr hc hin e).seq (lays_returnTop hc)
    | none => exact (Lays.emit hc.unit rfl _).seq (lays_returnTop hc)
  · simp only [lowerReturn, if_neg hk]
    exact Lays.throws_bind

theorem Lays.stackDepth {f : Int → Lowering Unit} {C : Code} (hf : ∀ d, Lays B a S (f d) S' C) :
    Lays B a S (stackDepth >>= f) S' C := fun st st' ha hok hp h => hf st.builder.depth st st' ha hok hp h

theorem lays_labelled (ho : ctx.options = o) (hc : Fits B a ctx c) (labels : List String) (span : Span)
    {statement P} (hp : PartLays B o statement P) :
    Lays B a S (lowerLabelled labels span statement ctx) S (Layout.labelledAt c labels P) := by
  have hcheck : ∀ {S} before, Lays B a S (do
      let after ← stackDepth
      if ctx.options.checkBalance && after != before then
        throw (.internal (.unbalanced span after before))
      else pure ()) S .nil := by
    intro S before
    refine Lays.stackDepth fun after => ?_
    split
    · exact Lays.throws
    · exact Lays.pure
  have hnil : ∀ {C : Code} p q, (C ++ Code.nil) p q → C p q := by
    rintro C p q ⟨m, h, -, rfl⟩
    exact h
  unfold lowerLabelled Layout.labelledAt
  refine Lays.stackDepth fun before => ?_
  split
  · exact ((hp ho hc).seq (hcheck before)).weaken (fun _ h => h) hnil
  · refine Lays.newLabel fun exit hexit => ?_
    rw [← bind_assoc]
    refine Lays.weaken (Lays.seq (C := P (c.within (.breakable labels .labelled (B.target exit) none)) ++
      .mark (B.target exit)) ?_ (hcheck before)) (fun _ h => h) hnil
    exact (hp (by exact ho) (hc.within (.breakable labels .labelled exit none))).seq
      ((Lays.mark (.inl rfl)).pending (by grind))

mutual

theorem lays_stmt (hin : InnerLays o inner) : ∀ s : Stmt,
    PartLays B o (lowerStmt inner s) (Layout.stmtAt s)
  | ⟨labels, span, kind⟩ => by
    intro a ctx c S ho hc
    exact lays_labelled ho hc labels span (lays_kind hin kind labels)

theorem lays_kind (hin : InnerLays o inner) : ∀ (k : StmtKind) (labels : List String),
    PartLays B o (lowerKind inner k labels) (Layout.kindAt k labels)
  | .var ds, labels => by
    intro a ctx c S ho hc
    exact lays_declarators hc (ho ▸ hin) ds
  | .function _, labels => by
    intro a ctx c S ho hc
    exact Lays.pure
  | .expression e, labels => by
    intro a ctx c S ho hc
    exact lays_evaluation hc (ho ▸ hin) e
  | .block body, labels => lays_body hin body
  | .branch test consequent alternate, labels => by
    intro a ctx c S ho hc
    exact lays_branch ho hc (ho ▸ hin) test (lays_stmt hin consequent) (lays_alternate hin alternate)
  | .loop head body, labels => by
    intro a ctx c S ho hc
    exact lays_loop ho hc (ho ▸ hin) head labels (lays_stmt hin body)
  | .switch discriminant cases, labels => by
    intro a ctx c S ho hc
    exact lays_switch ho hc (ho ▸ hin) discriminant labels (lays_cases hin cases)
  | .returns value, labels => by
    intro a ctx c S ho hc
    exact lays_return hc (ho ▸ hin) value
  | .breaks label, labels => by
    intro a ctx c S ho hc
    exact lays_lowerJump hc .breaks _
  | .continues label, labels => by
    intro a ctx c S ho hc
    exact lays_lowerJump hc .continues _
  | .throws value, labels => by
    intro a ctx c S ho hc
    exact (lays_expr hc (ho ▸ hin) value).seq (Lays.emit hc.unit rfl _)
  | .attempt block handler finalizer, labels => by
    intro a ctx c S ho hc
    exact lays_attempt ho hc (lays_body hin block) (lays_handlerPart hin handler)
      (lays_finalizerPart hin finalizer)
  | .scoped object body, labels => by
    intro a ctx c S ho hc
    exact lays_scoped ho hc (ho ▸ hin) object (lays_stmt hin body)
  | .empty, labels => by
    intro a ctx c S ho hc
    exact Lays.pure

theorem lays_alternate (hin : InnerLays o inner) : ∀ s : Option Stmt,
    OptionLays B o (lowerAlternate inner s) (Layout.alternateAt s)
  | none => .none
  | some s => .some (lays_stmt hin s)

theorem lays_handlerPart (hin : InnerLays o inner) : ∀ h : Option CatchClause,
    HandlerLays B o (lowerHandler inner h) (Layout.handlerPart h)
  | none => .none
  | some ⟨param, body⟩ => .some (lays_body hin body)

theorem lays_finalizerPart (hin : InnerLays o inner) : ∀ f : Option (List Stmt),
    OptionLays B o (lowerFinalizer inner f) (Layout.finalizerPart f)
  | none => .none
  | some body => .some (lays_body hin body)

/-- **The code of a statement list is laid out wherever the list stands.** -/
theorem lays_body (hin : InnerLays o inner) : ∀ ss : List Stmt,
    PartLays B o (lowerBody inner ss) (Layout.bodyAt ss)
  | [] => by
    intro a ctx c S ho hc
    exact Lays.pure
  | s :: ss => by
    intro a ctx c S ho hc
    exact (lays_stmt hin s ho hc).seq (lays_body hin ss ho hc)

theorem lays_cases (hin : InnerLays o inner) : ∀ cs : List SwitchCase,
    CasesLay B o (lowerCases inner cs) (Layout.casesAt cs)
  | [] => .nil
  | ⟨test, body⟩ :: cs => .cons (lays_body hin body) (lays_cases hin cs)

end

end ScriptEngine.Lowering
