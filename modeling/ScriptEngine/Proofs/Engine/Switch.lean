/-
Switch statements. What a switch does is said clause by clause: which tests are
evaluated, where the bodies begin, and how far they follow each other. Main
statement: `switch_runs`, the code of a switch does just that.
-/
import ScriptEngine.Proofs.Engine.Standing

namespace ScriptEngine

namespace Meaning

section

variable (h : Host) (act : Activation)

/-- The tests of some clauses are evaluated in turn, and none is strictly equal to a value. -/
def Differ (v : Value) (cs : List (Option Expr × Act)) (W W' : World) : Prop :=
  ∃ ws, (cs.filterMap Prod.fst).mapM (evalExpr h act) W = some (.ok ws, W') ∧ ∀ w ∈ ws, v.strictEquals w = false

/-- Bodies follow each other as long as they end normally. -/
inductive Falls : List Act → World → Option (Completion × World) → Prop
  | behind {W} : Falls [] W (some (.ok .normal, W))
  | next {body rest W W' o} : body act W = some (.ok .normal, W') → Falls rest W' o → Falls (body :: rest) W o
  | stops {body rest W o} : body act W = o → (∀ W', o ≠ some (.ok .normal, W')) → Falls (body :: rest) W o

inductive Switches (discriminant : Expr) (labels : List String) (cs : List (Option Expr × Act)) (W : World) :
    Option (Completion × World) → Prop
  /-- The discriminant has no value. -/
  | aborts {o} : Aborts (evalExpr h act discriminant) W o → Switches discriminant labels cs W o
  /-- A test has no value, and none before it agreed. -/
  | test {v W₁ before t body after W₂ o} : evalExpr h act discriminant W = some (.ok v, W₁) →
      cs = before ++ (some t, body) :: after → Differ h act v before W₁ W₂ → Aborts (evalExpr h act t) W₂ o →
      Switches discriminant labels cs W o
  /-- A test is the first that agrees. -/
  | agrees {v W₁ before t body after W₂ w W₃ o} : evalExpr h act discriminant W = some (.ok v, W₁) →
      cs = before ++ (some t, body) :: after → Differ h act v before W₁ W₂ →
      evalExpr h act t W₂ = some (.ok w, W₃) → v.strictEquals w = true →
      Falls act (body :: after.map Prod.snd) W₃ o → Switches discriminant labels cs W (behind labels o)
  /-- No test agrees, and there is a default clause; the last one counts. -/
  | default {v W₁ W₂ before body after o} : evalExpr h act discriminant W = some (.ok v, W₁) →
      Differ h act v cs W₁ W₂ → cs = before ++ (none, body) :: after → (∀ c ∈ after, c.1 ≠ none) →
      Falls act (body :: after.map Prod.snd) W₂ o → Switches discriminant labels cs W (behind labels o)
  /-- No test agrees, and there is no default clause. -/
  | nothing {v W₁ W₂} : evalExpr h act discriminant W = some (.ok v, W₁) → Differ h act v cs W₁ W₂ →
      (∀ c ∈ cs, c.1 ≠ none) → Switches discriminant labels cs W (some (.ok .normal, W₂))

end

section

variable {h : Host} {act : Activation} {v : Value} {cs : List (Option Expr × Act)} {W W' : World}

/-! ## Tests -/

theorem differ_nil : Differ h act v [] W W' ↔ W = W' := by
  constructor
  · rintro ⟨ws, hws, -⟩
    cases hws
    rfl
  · rintro rfl
    exact ⟨[], rfl, nofun⟩

theorem differ_default {body : Act} : Differ h act v ((none, body) :: cs) W W' ↔ Differ h act v cs W W' := Iff.rfl

theorem differ_test {t : Expr} {body : Act} : Differ h act v ((some t, body) :: cs) W W' ↔
    ∃ w W₁, evalExpr h act t W = some (.ok w, W₁) ∧ v.strictEquals w = false ∧ Differ h act v cs W₁ W' := by
  have htests : (((some t, body) :: cs).filterMap Prod.fst).mapM (evalExpr h act) = (do
      let w ← evalExpr h act t
      let ws ← (cs.filterMap Prod.fst).mapM (evalExpr h act)
      return w :: ws) := List.mapM_cons
  rw [Differ, htests]
  constructor
  · rintro ⟨ws, hws, hdiffer⟩
    rw [bind_apply] at hws
    rcases ht : evalExpr h act t W with _ | ⟨_ | w, W₁⟩ <;> rw [ht] at hws
    · cases hws
    · cases hws
    · dsimp only at hws
      rw [bind_apply] at hws
      rcases hrest : (cs.filterMap Prod.fst).mapM (evalExpr h act) W₁ with _ | ⟨_ | ws', W₂⟩ <;> rw [hrest] at hws
      · cases hws
      · cases hws
      · cases hws
        rw [List.forall_mem_cons] at hdiffer
        exact ⟨w, W₁, rfl, hdiffer.1, ws', hrest, hdiffer.2⟩
  · rintro ⟨w, W₁, ht, hw, ws, hws, hdiffer⟩
    refine ⟨w :: ws, ?_, List.forall_mem_cons.2 ⟨hw, hdiffer⟩⟩
    rw [bind_apply, ht]
    dsimp only
    rw [bind_apply, hws]
    rfl

theorem selectClause_append {before : List (Option Expr × Act)} (hd : Differ h act v before W W')
    (rest : List (Option Expr × Act)) :
    selectClause h act v (before ++ rest) W = selectClause h act v rest W' := by
  induction before generalizing W with
  | nil => rw [differ_nil.1 hd, List.nil_append]
  | cons c before ih =>
    obtain ⟨_ | t, body⟩ := c
    · exact ih (differ_default.1 hd)
    · obtain ⟨w, W₁, ht, hw, hd⟩ := differ_test.1 hd
      rw [List.cons_append, selectClause, bind_apply, ht]
      dsimp only
      rw [hw, if_neg Bool.false_ne_true]
      exact ih hd

theorem selectClause_cases (h : Host) (act : Activation) (v : Value) (cs : List (Option Expr × Act)) (W : World) :
    (∃ W', Differ h act v cs W W') ∨ ∃ before t body after W', cs = before ++ (some t, body) :: after ∧
      Differ h act v before W W' ∧ ((∃ o, Aborts (evalExpr h act t) W' o) ∨
        ∃ w W'', evalExpr h act t W' = some (.ok w, W'') ∧ v.strictEquals w = true) := by
  induction cs generalizing W with
  | nil => exact .inl ⟨W, differ_nil.2 rfl⟩
  | cons c cs ih =>
    obtain ⟨_ | t, body⟩ := c
    · rcases ih W with ⟨W', hd⟩ | ⟨before, t, body', after, W', rfl, hd, hend⟩
      · exact .inl ⟨W', differ_default.2 hd⟩
      · exact .inr ⟨(none, body) :: before, t, body', after, W', rfl, differ_default.2 hd, hend⟩
    · have hhere : (some t, body) :: cs = [] ++ (some t, body) :: cs := rfl
      rcases ht : evalExpr h act t W with _ | ⟨e | w, W₁⟩
      · exact .inr ⟨[], t, body, cs, W, hhere, differ_nil.2 rfl, .inl ⟨_, .lasts ht⟩⟩
      · exact .inr ⟨[], t, body, cs, W, hhere, differ_nil.2 rfl, .inl ⟨_, .raises ht⟩⟩
      · cases hw : v.strictEquals w with
        | true => exact .inr ⟨[], t, body, cs, W, hhere, differ_nil.2 rfl, .inr ⟨w, W₁, ht, hw⟩⟩
        | false =>
          rcases ih W₁ with ⟨W', hd⟩ | ⟨before, t', body', after, W', rfl, hd, hend⟩
          · exact .inl ⟨W', differ_test.2 ⟨w, W₁, ht, hw, hd⟩⟩
          · exact .inr ⟨(some t, body) :: before, t', body', after, W', rfl, differ_test.2 ⟨w, W₁, ht, hw, hd⟩, hend⟩

/-! ## Bodies -/

theorem runClauses_next {c : Option Expr × Act} (hb : c.2 act W = some (.ok .normal, W')) :
    runClauses act (c :: cs) W = runClauses act cs W' := by
  rw [runClauses, andThen, bind_apply, hb]

theorem runClauses_stops {c : Option Expr × Act} {o : Option (Completion × World)} (hb : c.2 act W = o)
    (hne : ∀ W', o ≠ some (.ok .normal, W')) : runClauses act (c :: cs) W = o := by
  rw [runClauses, andThen, bind_apply, hb]
  rcases o with _ | ⟨_ | _ | _ | _, W'⟩
  case some.ok.normal => exact (hne W' rfl).elim
  all_goals rfl

theorem falls_runClauses (act : Activation) (cs : List (Option Expr × Act)) (W : World) :
    Falls act (cs.map Prod.snd) W (runClauses act cs W) := by
  induction cs generalizing W with
  | nil => exact .behind
  | cons c cs ih =>
    by_cases hnormal : ∃ W', c.2 act W = some (.ok .normal, W')
    · obtain ⟨W', hb⟩ := hnormal
      rw [runClauses_next hb]
      exact .next hb (ih W')
    · have hne : ∀ W', c.2 act W ≠ some (.ok .normal, W') := fun W' hb => hnormal ⟨W', hb⟩
      rw [runClauses_stops rfl hne]
      exact .stops rfl hne

theorem Falls.eq {bodies : List Act} {o : Option (Completion × World)} (hf : Falls act bodies W o)
    (hcs : cs.map Prod.snd = bodies) : runClauses act cs W = o := by
  induction hf generalizing cs with
  | behind =>
    rw [List.map_eq_nil_iff.1 hcs]
    rfl
  | next hb _ ih =>
    obtain ⟨c, cs, rfl, rfl, hrest⟩ := List.map_eq_cons_iff.1 hcs
    rw [runClauses_next hb]
    exact ih hrest
  | stops hb hne =>
    obtain ⟨c, cs, rfl, rfl, -⟩ := List.map_eq_cons_iff.1 hcs
    exact runClauses_stops hb hne

theorem breakable_switch (labels : List String) (x : Eval Exit) (W : World) :
    breakable labels .switch x W = behind labels (x W) := by
  rw [breakable, bind_apply]
  rcases x W with _ | ⟨e | exit, W'⟩
  · rfl
  · rfl
  · exact (behind_ok labels .switch (by decide) exit W').symm

/-! ## Default clauses -/

theorem defaultClause_append (before : List (Option Expr × Act)) (body : Act) {after : List (Option Expr × Act)}
    (hlast : ∀ c ∈ after, c.1 ≠ none) :
    defaultClause (before ++ (none, body) :: after) = (none, body) :: after := by
  have hnone : after.any (·.1.isNone) = false := by
    rw [List.any_eq_false]
    intro c hc hn
    exact hlast c hc (Option.isNone_iff_eq_none.1 hn)
  induction before with
  | nil =>
    rw [List.nil_append, defaultClause, hnone]
    rfl
  | cons c before ih =>
    have hsome : (before ++ (none, body) :: after).any (·.1.isNone) = true := by simp
    rw [List.cons_append, defaultClause, hsome, Bool.not_true, Bool.and_false, if_neg Bool.false_ne_true, ih]

theorem defaultClause_eq_nil (hall : ∀ c ∈ cs, c.1 ≠ none) : defaultClause cs = [] := by
  induction cs with
  | nil => rfl
  | cons c cs ih =>
    rw [List.forall_mem_cons] at hall
    have hsome : c.1.isNone = false := Option.isNone_eq_false_iff.2 (Option.isSome_iff_ne_none.2 hall.1)
    rw [defaultClause, hsome, Bool.false_and, if_neg Bool.false_ne_true, ih hall.2]

theorem default_cases (cs : List (Option Expr × Act)) : (∀ c ∈ cs, c.1 ≠ none) ∨
    ∃ before body after, cs = before ++ (none, body) :: after ∧ ∀ c ∈ after, c.1 ≠ none := by
  induction cs with
  | nil => exact .inl nofun
  | cons c cs ih =>
    rcases ih with hall | ⟨before, body, after, rfl, hlast⟩
    · obtain ⟨_ | t, body⟩ := c
      · exact .inr ⟨[], body, cs, rfl, hall⟩
      · exact .inl (List.forall_mem_cons.2 ⟨nofun, hall⟩)
    · exact .inr ⟨c :: before, body, after, rfl, hlast⟩

/-! ## Switches -/

variable {discriminant : Expr} {labels : List String} {o : Option (Completion × World)}

theorem evalSwitch_of_value {W₁ : World} (hd : evalExpr h act discriminant W = some (.ok v, W₁)) :
    evalSwitch h discriminant labels cs act W = (do
      let selected ← selectClause h act v cs
      breakable labels .switch (runClauses act (selected.getD (defaultClause cs)))) W₁ := by
  rw [evalSwitch, bind_apply, hd]

theorem evalSwitch_agrees {W₁ W₂ W₃ : World} {before after : List (Option Expr × Act)} {t : Expr} {body : Act} {w : Value}
    (hd : evalExpr h act discriminant W = some (.ok v, W₁)) (hbefore : Differ h act v before W₁ W₂)
    (ht : evalExpr h act t W₂ = some (.ok w, W₃)) (hw : v.strictEquals w = true) :
    evalSwitch h discriminant labels (before ++ (some t, body) :: after) act W =
      behind labels (runClauses act ((some t, body) :: after) W₃) := by
  rw [evalSwitch_of_value hd, bind_apply, selectClause_append hbefore, selectClause, bind_apply, ht]
  dsimp only
  rw [if_pos hw]
  exact breakable_switch labels _ W₃

theorem evalSwitch_differ {W₁ W₂ : World} (hd : evalExpr h act discriminant W = some (.ok v, W₁))
    (hdiffer : Differ h act v cs W₁ W₂) :
    evalSwitch h discriminant labels cs act W = behind labels (runClauses act (defaultClause cs) W₂) := by
  have hnone : selectClause h act v cs W₁ = some (.ok none, W₂) := by
    have hall := selectClause_append hdiffer []
    rwa [List.append_nil] at hall
  rw [evalSwitch_of_value hd, bind_apply, hnone]
  exact breakable_switch labels _ W₂

theorem Switches.eq (hs : Switches h act discriminant labels cs W o) : evalSwitch h discriminant labels cs act W = o := by
  cases hs with
  | aborts ha =>
    rw [evalSwitch, bind_apply]
    cases ha with
    | raises hx => rw [hx]
    | lasts hx => rw [hx]
  | test hd hcs hbefore ha =>
    subst hcs
    rw [evalSwitch_of_value hd, bind_apply, selectClause_append hbefore, selectClause, bind_apply]
    cases ha with
    | raises hx => rw [hx]
    | lasts hx => rw [hx]
  | agrees hd hcs hbefore ht hw hf =>
    subst hcs
    rw [evalSwitch_agrees hd hbefore ht hw, hf.eq rfl]
  | default hd hdiffer hcs hlast hf =>
    rw [evalSwitch_differ hd hdiffer, hcs, defaultClause_append _ _ hlast, hf.eq rfl]
  | nothing hd hdiffer hall =>
    rw [evalSwitch_differ hd hdiffer, defaultClause_eq_nil hall]
    rfl

theorem switches_evalSwitch (h : Host) (act : Activation) (discriminant : Expr) (labels : List String)
    (cs : List (Option Expr × Act)) (W : World) :
    Switches h act discriminant labels cs W (evalSwitch h discriminant labels cs act W) := by
  suffices hs : ∃ o, Switches h act discriminant labels cs W o by
    obtain ⟨o, ho⟩ := hs
    rw [ho.eq]
    exact ho
  rcases hd : evalExpr h act discriminant W with _ | ⟨e | v, W₁⟩
  · exact ⟨_, .aborts (.lasts hd)⟩
  · exact ⟨_, .aborts (.raises hd)⟩
  rcases selectClause_cases h act v cs W₁ with ⟨W₂, hdiffer⟩ | ⟨before, t, body, after, W₂, hcs, hbefore, hend⟩
  · rcases default_cases cs with hall | ⟨before, body, after, hcs, hlast⟩
    · exact ⟨_, .nothing hd hdiffer hall⟩
    · exact ⟨_, .default hd hdiffer hcs hlast (falls_runClauses act ((none, body) :: after) W₂)⟩
  · rcases hend with ⟨o, ha⟩ | ⟨w, W₃, ht, hw⟩
    · exact ⟨_, .test hd hcs hbefore ha⟩
    · exact ⟨_, .agrees hd hcs hbefore ht hw (falls_runClauses act ((some t, body) :: after) W₃)⟩

end

end Meaning

open Meaning

/-- **The code of a switch evaluates the discriminant, then the tests in turn up to the first that
is strictly equal to it, and then runs the bodies from there on, or from the default clause on, or
none; a break of the switch ends right behind it.** -/
theorem switch_runs {options : EngineOptions} {discriminant : Expr} {cases : List SwitchCase} {labels : List String}
    (S : Standing options (.switch discriminant cases) labels) (n : Nat) :
    let h := host (evalFault options.lowering) n
    let Way := Switches h S.activation discriminant labels (evalCases h cases) S.world
    (∃ o, Way o) ∧ ∀ o, Way o → S.Follows n o := by
  intro h Way
  have hway := switches_evalSwitch h S.activation discriminant labels (evalCases h cases) S.world
  refine ⟨⟨_, hway⟩, fun o ho => ?_⟩
  have hfollows := S.follows n
  rw [evalKind] at hfollows
  rw [← ho.eq]
  exact hfollows

/-- The default clause comes first and is passed over, and a break ends behind the switch. -/
theorem switch_runs_break :
    let cases : List SwitchCase := [⟨none, []⟩, ⟨some .null, [⟨[], default, .breaks none⟩]⟩]
    ∃ S : Standing .standard (.switch .null cases) [], S.Follows 1 (some (.ok .normal, S.world)) := by
  intro cases
  obtain ⟨S, -⟩ := Standing.exists_first .standard (.switch .null cases) [] 0 (by decide +kernel)
  have hnull : evalExpr (host (evalFault .standard) 1) S.activation .null S.world = some (.ok .null, S.world) := by
    rw [evalExpr]
    rfl
  have hfalls : Falls S.activation [evalBody (host (evalFault .standard) 1) [⟨[], default, .breaks none⟩]] S.world
      (some (.ok (.jumps .breaks none), S.world)) := .stops rfl nofun
  have hcases : evalCases (host (evalFault .standard) 1) cases =
      [(none, evalBody _ [])] ++ [(some .null, evalBody _ [⟨[], default, .breaks none⟩])] := rfl
  exact ⟨S, (switch_runs S 1).2 _ (.agrees hnull hcases (differ_default.2 (differ_nil.2 rfl)) hnull rfl hfalls)⟩

end ScriptEngine
