/-
Statements. The code of a switch compares the discriminant, which waits in a
temporary, with one test after another and goes to the body of the first clause
that agrees. Main statement: `does_stmt`, by recursion over the trees.
-/
import ScriptEngine.Proofs.Simulation.Attempt
import ScriptEngine.Proofs.Simulation.Loop

namespace ScriptEngine

open Meaning Layout
open Lowering (JumpKind)

/-! ## Switch -/

/-- Clauses with the same tests, whose bodies do what they should. -/
def CasesDo (M : Mode) (n : Nat) : List (Option Expr × Part) → List (Option Expr × Act) → Prop
  | [], [] => True
  | (test, p) :: ps, (test', x) :: xs => test = test' ∧ PartDoes M n p x ∧ CasesDo M n ps xs
  | _, _ => False

/-- Clauses of the code and clauses of the evaluation. -/
def ClausesDo (M : Mode) (n : Nat) (cs : List Clause) (es : List (Option Expr × Act)) : Prop :=
  CasesDo M n (cs.map fun k => (k.test, k.body)) es

/-- Clauses of the evaluation belong to those of the code from some clause on. -/
def FromClause (M : Mode) (n : Nat) (cs : List Clause) (position : Nat) (es : List (Option Expr × Act)) : Prop :=
  ∃ before k after, cs = before ++ k :: after ∧ k.position = position ∧ ClausesDo M n (k :: after) es

section

variable {M : Mode} {n : Nat} {h : Host} {K : Stage} {c : Setting} {act : Activation}

theorem FromClause.cons {cs : List Clause} {p : Nat} {es : List (Option Expr × Act)} (k : Clause)
    (h : FromClause M n cs p es) : FromClause M n (k :: cs) p es := by
  obtain ⟨before, k', after, rfl, hp, he⟩ := h
  exact ⟨k :: before, k', after, rfl, hp, he⟩

theorem selectClause_sim {t : Nat} {v : Value} (hM : M.Fits) (hc : Suits M K c act) (hh : HostSim M n h)
    (ht : K.taken = t + 1) (hv : K.frame.temporary t = v) (hne : c.completion ≠ some t) :
    ∀ (cs : List Clause) (es : List (Option Expr × Act)), ClausesDo M n cs es → ∀ {a b : Point} {st : List Value} {r W f},
      K.taken ≤ a.temps → clauseTestsAt c t cs a b → At M K a.pc st r W f →
      Sim M n (selectClause h act v es) W (.run ⟨r, f, K.callers⟩) (fun selected W' s' =>
        match selected with
        | none => Arrives M K b.pc st W' s'
        | some es' => ∃ p, FromClause M n cs p es' ∧ Arrives M K p st W' s') (Fails M K)
  | [], [], _, a, b, st, r, W, f, _, hl, hf => by
    cases hl
    exact .pure ⟨r, f, rfl, hf⟩
  | ⟨none, body, p⟩ :: cs, (none, x) :: es, ⟨_, _, he⟩, a, b, st, r, W, f, ha, hl, hf => by
    refine (selectClause_sim hM hc hh ht hv hne cs es he ha hl hf).mono (fun selected W' s' hs => ?_)
      fun _ _ _ hs => hs
    match selected with
    | none => exact hs
    | some es' =>
      obtain ⟨p', hp', hs⟩ := hs
      exact ⟨p', hp'.cons _, hs⟩
  | ⟨some test, body, p⟩ :: cs, (some _, x) :: es, ⟨rfl, hx, he⟩, a, b, st, r, W, f, ha, hl, hf => by
    obtain ⟨m₁, hload, h₁, m₂, hexpr, h₂, m₃, hstrict, h₃, m₄, ⟨hi, hm₄⟩, h₄, hrest⟩ := hl
    cases hm₄
    have hcompare : Does M n K (emitWith c .loadLocal (.temporary t) ++ (exprAt c test ++ emit c .strictEq))
        (evalExpr h act test) st fun w => .boolean (v.strictEquals w) :: st :=
      (does_loadKept hc ht hv hne).skip ((does_expr hM hc hh test (v :: st)).behind fun w => does_strictEq hc v w)
    refine (hcompare a m₃ ha ⟨m₁, hload, h₁, m₂, hexpr, h₂, hstrict⟩ r W f hf).bind fun w W' s' _ hs => ?_
    obtain ⟨r', f', rfl, hf'⟩ := hs
    obtain ⟨f'', hr, hf''⟩ := hf'.jumpsWhen true hc rfl hi
    refine .reaches hr ?_ (Nat.le_add_left n 1)
    cases hw : v.strictEquals w with
    | true =>
      rw [hw] at hf''
      exact .pure ⟨p, ⟨[], _, cs, rfl, rfl, rfl, hx, he⟩, r', f'', rfl, hf''⟩
    | false =>
      rw [hw] at hf''
      have ha₄ := Nat.le_trans ha (Nat.le_trans h₁ (Nat.le_trans h₂ (Nat.le_trans h₃ h₄)))
      refine (selectClause_sim hM hc hh ht hv hne cs es he ha₄ hrest hf'').mono (fun selected W' s' hs => ?_)
        fun _ _ _ hs => hs
      match selected with
      | none => exact hs
      | some es' =>
        obtain ⟨p', hp', hs⟩ := hs
        exact ⟨p', hp'.cons _, hs⟩

theorem does_clauses (hc : Suits M K c act) : ∀ (cs : List Clause) (es : List (Option Expr × Act)),
    ClausesDo M n cs es → StmtDoes M n K c (clauseBodiesAt c cs) (runClauses act es)
  | [], [], _ => .nil
  | ⟨_, body, p⟩ :: cs, (_, x) :: es, ⟨_, hx, he⟩ => by
    intro a b st ha hl r W f hf
    obtain ⟨m, ⟨rfl, -⟩, -, hl⟩ := hl
    exact StmtDoes.andThen (hx K c act hc) (does_clauses hc cs es he) a b st ha hl r W f hf

theorem clauseBodiesAt_from : ∀ {before : List Clause} {k : Clause} {after : List Clause} {a b : Point},
    clauseBodiesAt c (before ++ k :: after) a b →
      ∃ q, q.pc = k.position ∧ a.temps ≤ q.temps ∧ clauseBodiesAt c (k :: after) q b
  | [], ⟨_, body, p⟩, after, a, b, hl => by
    obtain ⟨m, ⟨rfl, rfl⟩, hm, hl'⟩ := hl
    exact ⟨a, rfl, Nat.le_refl _, a, ⟨rfl, rfl⟩, hm, hl'⟩
  | ⟨_, body', p'⟩ :: before, k, after, a, b, hl => by
    obtain ⟨m, -, hm, m', -, hm', hl⟩ := hl
    obtain ⟨q, hq, hle, hl⟩ := clauseBodiesAt_from hl
    exact ⟨q, hq, Nat.le_trans (Nat.le_trans hm hm') hle, hl⟩

theorem defaultPosition_none (done : Nat) : ∀ {cs : List Clause} {es : List (Option Expr × Act)},
    ClausesDo M n cs es → es.any (·.1.isNone) = false → defaultPosition done cs = done ∧ defaultClause es = []
  | [], [], _, _ => ⟨rfl, rfl⟩
  | ⟨test, _, _⟩ :: cs, (_, _) :: es, ⟨rfl, _, he⟩, hany => by
    rw [List.any_cons, Bool.or_eq_false_iff] at hany
    obtain ⟨hp, hd⟩ := defaultPosition_none done he hany.2
    simp only [defaultPosition, defaultClause]
    rw [hany.1]
    exact ⟨hp, hd⟩

theorem defaultPosition_from : ∀ {cs : List Clause} {es : List (Option Expr × Act)} {done : Nat},
    ClausesDo M n cs es → es.any (·.1.isNone) = true →
      FromClause M n cs (defaultPosition done cs) (defaultClause es)
  | [], [], _, _, hany => by cases hany
  | ⟨test, body, p⟩ :: cs, (_, x) :: es, done, ⟨rfl, hx, he⟩, hany => by
    cases hrest : es.any (·.1.isNone) with
    | true =>
      have hd : defaultClause ((test, x) :: es) = defaultClause es := by
        simp only [defaultClause, hrest, Bool.not_true, Bool.and_false, if_neg Bool.false_ne_true]
      rw [hd, defaultPosition]
      exact (defaultPosition_from he hrest).cons _
    | false =>
      rw [List.any_cons, hrest, Bool.or_false] at hany
      have hd : defaultClause ((test, x) :: es) = (test, x) :: es := by
        simp only [defaultClause, hrest, hany]
        rfl
      rw [hd, defaultPosition, (defaultPosition_none _ he hrest).1, if_pos hany]
      exact ⟨[], _, cs, rfl, rfl, rfl, hx, he⟩

theorem does_switch (hM : M.Fits) (hc : Suits M K c act) (hh : HostSim M n h) (discriminant : Expr)
    (labels : List String) {ps : List (Option Expr × Part)} {es : List (Option Expr × Act)}
    (hp : CasesDo M n ps es) :
    StmtDoes M n K c (switchAt c discriminant labels ps) (evalSwitch h discriminant labels es act) := by
  intro a b st ha hl r W f hf
  obtain ⟨m₁, hexpr, h₁, m₂, ⟨hi, hm₂⟩, -, done, cs, hcs, m₃, htests, h₃, m₄, ⟨hj, hm₄⟩, -, m₅, hbodies, h₅, rfl, rfl⟩ := hl
  cases hm₂
  cases hm₄
  have hcs : ClausesDo M n cs es := by rw [ClausesDo, hcs]; exact hp
  refine (does_expr hM hc hh discriminant st _ m₁ (Nat.le_succ_of_le ha) hexpr r W f hf).bind fun v W₁ s₁ _ hs => ?_
  obtain ⟨r₁, f₁, rfl, hf₁⟩ := hs
  refine .reaches (hf₁.storeLocal hc hi) ?_ (Nat.le_add_left n 1)
  -- the discriminant waits in its temporary from here on
  have hf₂ := hf₁.stored hc ha
  have hle : K.taken ≤ a.temps + 1 := Nat.le_succ_of_le ha
  have hc' := hc.later hf₂ hle
  have hlater := hf₂.isLater hle
  have ha₃ : a.temps + 1 ≤ m₃.temps := Nat.le_trans h₁ h₃
  generalize hK' : K.sub ((f₁.past (st ++ K.frame.stack)).setTemporary a.temps v) r₁ (a.temps + 1) = K' at hc' hlater
  have ht : K'.taken = a.temps + 1 := by rw [← hK']; rfl
  have hv : K'.frame.temporary a.temps = v := by
    rw [← hK']
    exact (Frame.temporary_setTemporary _ _ _ v).trans (if_pos rfl)
  have hne : c.completion ≠ some a.temps := by
    rw [← hc.completion]
    exact hc.completion_ne ha
  -- the bodies from some clause on
  have hrun : ∀ {es' st W s} p, FromClause M n cs p es' → Arrives M K' p st W s →
      Sim M n (breakable labels .switch (runClauses act es')) W s (Ends M K' c m₅.pc) (Fails M K') := by
    rintro es' st W s p ⟨before, k, after, hsplit, rfl, hes⟩ ⟨r, f, rfl, hf⟩
    rw [hsplit] at hbodies
    obtain ⟨q, hq, hqt, hcode⟩ := clauseBodiesAt_from hbodies
    rw [← hq] at hf
    refine .breakable hc' (does_clauses (hc'.within _) _ es' hes q m₅ st ?_ hcode r W f hf)
    rw [ht]
    exact Nat.le_trans ha₃ hqt
  refine Sim.mono (Q := Ends M K' c m₅.pc) (E := Fails M K') ?_ (fun _ _ _ hs => hs.back hlater)
    fun _ _ _ hs => hs.back hlater
  have hf₂' : At M K' (m₁.pc + 1) st r₁ W₁ ((f₁.past (st ++ K.frame.stack)).setTemporary a.temps v) := by
    rw [← hK']
    exact hf₂.later
  rw [← hlater.callers]
  refine (selectClause_sim hM hc' hh ht hv hne cs es hcs (by rw [ht]; exact h₁) htests hf₂').bind
    fun selected W₃ s₃ _ hs => ?_
  match selected with
  | some es' =>
    obtain ⟨p, hfrom, hs⟩ := hs
    exact hrun p hfrom hs
  | none =>
    obtain ⟨r₃, f₃, rfl, hf₃⟩ := hs
    obtain ⟨f₄, hr, hf₄⟩ := hf₃.jumps hc' hj
    refine .reaches hr ?_ (Nat.le_add_left n 1)
    cases hany : es.any (·.1.isNone) with
    | true => exact hrun _ (defaultPosition_from hcs hany) ⟨r₃, f₄, rfl, hf₄⟩
    | false =>
      obtain ⟨hp, hd⟩ := defaultPosition_none m₅.pc hcs hany
      rw [hp] at hf₄
      rw [Option.getD_none, hd]
      exact .pure ⟨st, r₃, f₄, rfl, hf₄⟩

end

/-! ## Trees -/

section

variable {M : Mode} {n : Nat} {h : Host}

mutual

/-- **The code of a statement does what the statement does.** -/
theorem does_stmt (hM : M.Fits) (hh : HostSim M n h) : ∀ s : Stmt, PartDoes M n (stmtAt s) (evalStmt h s)
  | ⟨labels, _, kind⟩ => by
    intro K c act hc
    rw [stmtAt, evalStmt]
    exact does_labelled hc labels (does_kind hM hh kind labels)

theorem does_kind (hM : M.Fits) (hh : HostSim M n h) : ∀ (kind : StmtKind) (labels : List String),
    PartDoes M n (kindAt kind labels) (evalKind h kind labels)
  | .var ds, labels => by
    intro K c act hc
    rw [kindAt, evalKind]
    exact .of_does (does_declarators hM hc hh ds)
  | .function _, _ => by
    intro K c act hc
    rw [kindAt, evalKind]
    exact .nil
  | .expression e, _ => by
    intro K c act hc
    rw [kindAt, evalKind]
    exact does_evaluation hM hc hh e
  | .block body, _ => by
    intro K c act hc
    rw [kindAt, evalKind]
    exact does_body hM hh body K c act hc
  | .branch test consequent alternate, _ => by
    intro K c act hc
    rw [kindAt, evalKind]
    exact does_branch hM hc hh test (does_stmt hM hh consequent) (does_alternate hM hh alternate)
  | .loop head body, labels => by
    intro K c act hc
    rw [kindAt, evalKind]
    exact does_loop hM hc hh head labels (does_stmt hM hh body)
  | .switch discriminant cases, labels => by
    intro K c act hc
    rw [kindAt, evalKind]
    exact does_switch hM hc hh discriminant labels (does_cases hM hh cases)
  | .returns value, _ => by
    intro K c act hc
    rw [kindAt, evalKind]
    exact does_return hM hc hh value
  | .breaks label, _ => by
    intro K c act hc
    rw [kindAt, evalKind]
    exact does_jump .breaks _
  | .continues label, _ => by
    intro K c act hc
    rw [kindAt, evalKind]
    exact does_jump .continues _
  | .throws value, _ => by
    intro K c act hc
    rw [kindAt, evalKind]
    exact does_throw hM hc hh value
  | .attempt block handler finalizer, _ => by
    intro K c act hc
    rw [kindAt, evalKind]
    exact does_attempt hc (does_body hM hh block) (does_handler hM hh handler) (does_finalizer hM hh finalizer)
  | .scoped object body, _ => by
    intro K c act hc
    rw [kindAt, evalKind]
    exact does_scoped hM hc hh object (does_stmt hM hh body)
  | .empty, _ => by
    intro K c act hc
    rw [kindAt, evalKind]
    exact .nil

theorem does_alternate (hM : M.Fits) (hh : HostSim M n h) : ∀ s : Option Stmt,
    OptionDoes M n (alternateAt s) (evalAlternate h s)
  | none => by
    rw [alternateAt, evalAlternate]
    trivial
  | some s => does_stmt hM hh s

theorem does_handler (hM : M.Fits) (hh : HostSim M n h) : ∀ handler : Option CatchClause,
    HandlerDoes M n (handlerPart handler) (evalHandler h handler)
  | none => by
    rw [handlerPart, evalHandler]
    trivial
  | some ⟨param, body⟩ => ⟨rfl, does_body hM hh body⟩

theorem does_finalizer (hM : M.Fits) (hh : HostSim M n h) : ∀ finalizer : Option (List Stmt),
    OptionDoes M n (finalizerPart finalizer) (evalFinalizer h finalizer)
  | none => by
    rw [finalizerPart, evalFinalizer]
    trivial
  | some body => does_body hM hh body

theorem does_body (hM : M.Fits) (hh : HostSim M n h) : ∀ body : List Stmt,
    PartDoes M n (bodyAt body) (evalBody h body)
  | [] => by
    intro K c act hc
    rw [bodyAt, evalBody]
    exact .nil
  | s :: ss => by
    intro K c act hc
    rw [bodyAt, evalBody]
    exact (does_stmt hM hh s K c act hc).andThen (does_body hM hh ss K c act hc)

theorem does_cases (hM : M.Fits) (hh : HostSim M n h) : ∀ cases : List SwitchCase,
    CasesDo M n (casesAt cases) (evalCases h cases)
  | [] => by
    rw [casesAt, evalCases]
    trivial
  | ⟨test, body⟩ :: cs => ⟨rfl, does_body hM hh body, does_cases hM hh cs⟩

end

end

end ScriptEngine
