/-
Trees that were read respect the operator table. The functions of the grammar
call each other with less and less fuel, so `Reads` says what all of them give
for one amount of fuel. An operand is judged by its operator, but the reader
decides by the token that follows: what a climb leaves behind is an operator
that binds less tightly. An expression that comes to a bare name is the token it
started at (`expression_names`). Main statements: `Program.parse_respects` and
`Program.parse_guarded`.
-/
import ScriptEngine.Proofs.Tree.Respects
import ScriptEngine.Tree.Grammar

namespace ScriptEngine

/-! ## Growing lists -/

section

variable {e : Expr} {test : Option Expr} {body : List Stmt}

theorem itemsRespect_push {es : Array Expr} :
    itemsRespect (es.push e).toList ↔ itemsRespect es.toList ∧ Precedence.assignment ≤ e.binds ∧ e.Respects := by
  rw [Array.toList_push]
  induction es.toList <;> simp_all [itemsRespect, and_assoc]

theorem elementsRespect_push {es : Array (Option Expr)} {element : Option Expr} :
    elementsRespect (es.push element).toList ↔
      elementsRespect es.toList ∧ ∀ e, element = some e → Precedence.assignment ≤ e.binds ∧ e.Respects := by
  rw [Array.toList_push]
  induction es.toList with
  | nil => cases element <;> simp [elementsRespect]
  | cons first => cases first <;> simp_all [elementsRespect, and_assoc]

theorem propertiesRespect_push {ps : Array (String × Expr)} {key : String} : propertiesRespect (ps.push (key, e)).toList ↔
    propertiesRespect ps.toList ∧ Precedence.assignment ≤ e.binds ∧ e.Respects := by
  rw [Array.toList_push]
  induction ps.toList <;> simp_all [propertiesRespect, and_assoc]

theorem declaratorsRespect_push {ds : Array Declarator} {id : Identifier} {init : Option Expr} :
    declaratorsRespect (ds.push ⟨id, init⟩).toList ↔ declaratorsRespect ds.toList ∧ optionRespects init := by
  rw [Array.toList_push]
  induction ds.toList with
  | nil => simp [declaratorsRespect]
  | cons d => cases d; simp_all [declaratorsRespect, and_assoc]

theorem bodyRespects_push {ss : Array Stmt} {s : Stmt} :
    bodyRespects (ss.push s).toList ↔ bodyRespects ss.toList ∧ s.Respects := by
  rw [Array.toList_push]
  induction ss.toList <;> simp_all [bodyRespects, and_assoc]

theorem casesRespect_push {cs : Array SwitchCase} : casesRespect (cs.push ⟨test, body⟩).toList ↔
    casesRespect cs.toList ∧ optionRespects test ∧ bodyRespects body := by
  rw [Array.toList_push]
  induction cs.toList with
  | nil => simp [casesRespect]
  | cons c => cases c; simp_all [casesRespect, and_assoc]

end

/-! ## Steps of reading -/

/-- Where a reader does not fail, what it gives and where it ends have a property. -/
def Leads (x : Parse α) (m : Cursor) (Q : α → Cursor → Prop) : Prop := ∀ a m', x m = .ok (a, m') → Q a m'

def Gives (Q : α → Prop) (x : Parse α) : Prop := ∀ m, Leads x m fun a _ => Q a

theorem Parse.bind_eq_ok {x : Parse α} {f : α → Parse β} {c c' : Cursor} {b : β} (h : (x >>= f) c = .ok (b, c')) :
    ∃ a m, x c = .ok (a, m) ∧ f a m = .ok (b, c') := by
  change (x c >>= fun p => f p.1 p.2) = .ok (b, c') at h
  cases hr : x c with
  | error e =>
    rw [hr] at h
    cases h
  | ok p =>
    rw [hr] at h
    exact ⟨p.1, p.2, rfl, h⟩

namespace Leads

open Parse

variable {m : Cursor} {Q Q' : α → Cursor → Prop} {R : β → Cursor → Prop} {x : Parse α} {f : α → Parse β}

theorem bind (hx : Leads x m Q) (hf : ∀ a m', Q a m' → Leads (f a) m' R) : Leads (x >>= f) m R := by
  intro b m' h
  obtain ⟨a, k, ha, hb⟩ := bind_eq_ok h
  exact hf a k (hx a k ha) b m' hb

theorem any (hf : ∀ a m', Leads (f a) m' R) : Leads (x >>= f) m R :=
  bind (fun _ _ _ => trivial : Leads x m fun _ _ => True) fun a m' _ => hf a m'

theorem imp (hx : Leads x m Q) (h : ∀ a m', Q a m' → Q' a m') : Leads x m Q' := fun a m' hr => h a m' (hx a m' hr)

theorem pure {a : α} (h : Q a m) : Leads (Pure.pure a : Parse α) m Q := by
  intro b m' hb
  cases hb
  exact h

theorem map {k : α → β} (hx : Leads x m Q) (h : ∀ a m', Q a m' → R (k a) m') : Leads (k <$> x) m R := by
  rw [map_eq_pure_bind]
  exact hx.bind fun a m' ha => pure (h a m' ha)

theorem throws {e : SyntaxFault} : Leads (throw e : Parse α) m Q := by
  intro b m' hb
  cases hb

theorem throws_bind {e : SyntaxFault} : Leads (throw e >>= f) m R := by
  intro b m' hb
  cases hb

theorem kind_bind {f : TokenKind → Parse β} (h : Leads (f m.current.kind) m R) : Leads (kind >>= f) m R := h

theorem token_bind {f : Token → Parse β} (h : Leads (f m.current) m R) : Leads (token >>= f) m R := h

theorem atMark_bind {p : Punctuator} {f : Bool → Parse β} (h : Leads (f (m.current.kind.isMark p)) m R) :
    Leads (atMark p >>= f) m R := h

theorem atWord_bind {w : ReservedWord} {f : Bool → Parse β} (h : Leads (f (m.current.kind.isWord w)) m R) :
    Leads (atWord w >>= f) m R := h

theorem build {op : Operator} {operands : List Expr} :
    Leads (Parse.build op operands) m fun e m' => op.build operands = .ok e ∧ m' = m := by
  intro e m' h
  change (op.build operands >>= fun e => Except.ok (e, m)) = .ok (e, m') at h
  cases hb : op.build operands with
  | error =>
    rw [hb] at h
    cases h
  | ok e' =>
    rw [hb] at h
    cases h
    exact ⟨rfl, rfl⟩

theorem close {start : Span} {kind : StmtKind} (h : kind.Respects) : Leads (Parse.close start kind) m fun s _ => s.Respects :=
  any fun _ _ => pure h

end Leads

theorem Gives.bind {S : α → Prop} {R : β → Cursor → Prop} {x : Parse α} {f : α → Parse β} {m : Cursor} (hx : Gives S x)
    (hf : ∀ a m', S a → Leads (f a) m' R) : Leads (x >>= f) m R := Leads.bind (hx m) hf

theorem ok_of_requireReference {target e e' : Expr} {use : TargetUse}
    (h : (requireReference target use >>= fun _ => Except.ok e) = .ok e') :
    target.isReference = true ∧ e = e' := by
  cases hr : target.isReference with
  | false =>
    rw [requireReference, hr] at h
    cases h
  | true =>
    rw [requireReference, hr] at h
    exact ⟨rfl, Except.ok.inj h⟩

/-! ## Bare names -/

/-- If the expression is a bare name, the token is that name. -/
def Expr.Names (t : Token) (e : Expr) : Prop := ∀ id, e = .identifier id → t.kind = .identifier id.name

def Expr.Extends (base e : Expr) : Prop := e = base ∨ ∀ id, e ≠ .identifier id

namespace Expr

variable {t : Token} {base e e' : Expr}

theorem Extends.refl (e : Expr) : e.Extends e := .inl rfl

theorem Extends.trans (h : base.Extends e) (h' : e.Extends e') : base.Extends e' := by
  rcases h' with rfl | h'
  · exact h
  · exact .inr h'

theorem Names.extends (h : base.Names t) (h' : base.Extends e) : e.Names t := by
  rcases h' with rfl | h'
  · exact h
  · exact fun id hid => absurd hid (h' id)

end Expr

theorem Operator.build_ne_identifier {op : Operator} {operands : List Expr} {e : Expr} (h : op.build operands = .ok e) :
    ∀ id, e ≠ .identifier id := by
  unfold Operator.build at h
  split at h
  all_goals first
    | cases h
    | obtain ⟨-, rfl⟩ := ok_of_requireReference h
  all_goals exact fun id hid => by cases hid

/-! ## Operators and what follows them -/

theorem TokenKind.isMark_iff {k : TokenKind} {p : Punctuator} : k.isMark p = true ↔ k = .mark p := by
  cases k <;> simp [isMark]

def Cursor.operator? (allowIn : Bool) (c : Cursor) : Option Operator :=
  (Operator.between? c.current.kind).filter fun op => allowIn || op.kind != .binary .isIn

def Cursor.Stops (allowIn : Bool) (least : Nat) (c : Cursor) : Prop :=
  ∀ op, c.operator? allowIn = some op → op.primary < least

/-- The tree can be the left operand of the next operator. -/
def Cursor.Takes (allowIn : Bool) (left : Expr) (c : Cursor) : Prop :=
  ∀ op, c.operator? allowIn = some op →
    op.primary ≤ left.binds ∧ (Precedence.conditional < left.binds ∨ op.primary < Precedence.assignment)

def Cursor.EndsAccesses (c : Cursor) : Prop :=
  c.current.kind.isMark .dot = false ∧ c.current.kind.isMark .leftBracket = false

def Cursor.EndsSuffixes (c : Cursor) : Prop := c.EndsAccesses ∧ c.current.kind.isMark .leftParen = false

theorem Expr.names_of_build {op : Operator} {operands : List Expr} {e : Expr} {t : Token} (h : op.build operands = .ok e) :
    e.Names t := fun id hid => absurd hid (Operator.build_ne_identifier h id)

namespace Grammar

open Parse

variable {allowIn : Bool} {left : Expr} {c : Cursor}

/-- The tree respects the table and binds at least so tightly. -/
def Fits (least : Nat) (e : Expr) : Prop := least ≤ e.binds ∧ e.Respects

/-- What the functions of the grammar read with this much fuel respects the operator table, and a bare name is the
token it was read from. -/
structure Reads (n : Nat) : Prop where
  statement : Gives Stmt.Respects (statement n)
  labelled : ∀ start e, e.Respects → Gives Stmt.Respects (labelled n start e)
  statements : ∀ stop before, bodyRespects before.toList → Gives bodyRespects (statements n stop before)
  block : Gives bodyRespects (block n)
  parenthesized : Gives Expr.Respects (parenthesized n)
  declarators : ∀ allowIn before, declaratorsRespect before.toList →
    Gives declaratorsRespect (declarators n allowIn before)
  function : ∀ requireName, Gives FunctionTree.Respects (function n requireName)
  branch : Gives StmtKind.Respects (branch n)
  switch : Gives StmtKind.Respects (switch n)
  clauses : ∀ before, casesRespect before.toList → Gives casesRespect (clauses n before)
  forLoop : Gives StmtKind.Respects (forLoop n)
  countedLoop : ∀ init, loopInitRespects init → Gives StmtKind.Respects (countedLoop n init)
  keyLoop : ∀ target, target.Respects → Gives StmtKind.Respects (keyLoop n target)
  attempt : Gives StmtKind.Respects (attempt n)
  expression : ∀ allowIn c, Leads (expression n allowIn) c fun e _ => e.Respects ∧ e.Names c.current
  commaList : ∀ allowIn before c, itemsRespect before.toList →
    2 ≤ before.size ∨ before.size = 1 ∧ c.current.kind.isMark .comma = true →
    Leads (commaList n allowIn before) c fun e _ => e.Respects ∧ ∀ id, e ≠ .identifier id
  climb : ∀ allowIn least c, Precedence.assignment ≤ least → least ≤ Precedence.unary →
    Leads (climb n allowIn least) c fun e m => Fits least e ∧ m.Stops allowIn least ∧ e.Names c.current
  climbFrom : ∀ allowIn least left c, Precedence.assignment ≤ least → Fits least left → c.Takes allowIn left →
    Leads (climbFrom n allowIn least left) c fun e m => Fits least e ∧ m.Stops allowIn least ∧ left.Extends e
  unary : ∀ c, Leads (unary n) c fun e _ => Fits Precedence.unary e ∧ e.Names c.current
  updated : ∀ c, Leads (updated n) c fun e _ => Fits Precedence.update e ∧ e.Names c.current
  leftHandSide : ∀ c, Leads (leftHandSide n) c fun e _ => Fits Precedence.new e ∧ e.Names c.current
  newOperand : ∀ c, Leads (newOperand n) c fun e m =>
    e.FitsNew ∧ e.Respects ∧ (Precedence.member ≤ (Expr.new e).binds ∨ m.EndsSuffixes)
  suffixes : ∀ base, Fits Precedence.member base → Gives (fun e => Fits Precedence.member e ∧ base.Extends e) (suffixes n base)
  accesses : ∀ base c, Fits Precedence.new base → base.callless = true → Precedence.member ≤ base.binds ∨ c.EndsSuffixes →
    Leads (accesses n base) c fun e m =>
      Fits Precedence.new e ∧ e.callless = true ∧ m.EndsAccesses ∧ (Precedence.member ≤ e.binds ∨ m.EndsSuffixes)
  access : ∀ base, Fits Precedence.member base →
    Gives (fun e => Fits Precedence.member e ∧ e.callless = base.callless ∧ base.Extends e) (access n base)
  call : ∀ callee, Fits Precedence.member callee →
    Gives (fun e => e.Respects ∧ ∃ arguments, e = .call callee arguments) (call n callee)
  primary : ∀ c, Leads (primary n) c fun e _ => (Fits Precedence.greatest e ∧ e.callless = true) ∧ e.Names c.current
  elements : ∀ before, elementsRespect before.toList → Gives elementsRespect (elements n before)
  properties : ∀ before, propertiesRespect before.toList → Gives propertiesRespect (properties n before)

theorem reads_zero : Reads 0 := by
  constructor <;> intros <;> first | exact Leads.throws | exact fun _ => Leads.throws

theorem takes_of_unary (h : Precedence.unary ≤ left.binds) : c.Takes allowIn left := by
  intro op hop
  have hpower : op.primary < Precedence.unary := by
    rcases Operator.between?_cases (Option.filter_eq_some_iff.1 hop).1 with
      ⟨o, rfl⟩ | ⟨o, rfl⟩ | ⟨o, p, rfl, -⟩ | rfl | rfl
    · exact o.power_bounds.2
    · exact o.power_bounds.2
    · exact (by decide : Precedence.assignment < Precedence.unary)
    · decide
    · decide
  exact ⟨Nat.le_of_lt (Nat.lt_of_lt_of_le hpower h), .inl (Nat.lt_of_lt_of_le (by decide) h)⟩

theorem takes_of_stops (h : Precedence.conditional < left.binds) (hc : c.Stops allowIn (left.binds + 1)) :
    c.Takes allowIn left :=
  fun op hop => ⟨Nat.le_of_lt_succ (hc op hop), .inl h⟩

theorem takes_of_stops_assignment (h : Precedence.assignment ≤ left.binds) (hc : c.Stops allowIn Precedence.assignment) :
    c.Takes allowIn left :=
  fun op hop => ⟨Nat.le_trans (Nat.le_of_lt (hc op hop)) h, .inr (hc op hop)⟩

theorem new_le_binds (e : Expr) : Precedence.new ≤ (Expr.new e).binds := by
  cases e <;> first | exact Nat.le_refl _ | exact (by decide : Precedence.new ≤ Precedence.greatest)

theorem fitsNew_of_callless {e : Expr} (h : Precedence.new ≤ e.binds) (hless : e.callless = true) : e.FitsNew := by
  cases e with
  | call callee arguments => cases hless
  | _ => exact ⟨h, hless⟩

theorem Fits.of_le {least least' : Nat} {e : Expr} (h : Fits least e) (hle : least' ≤ least) : Fits least' e :=
  ⟨Nat.le_trans hle h.1, h.2⟩

section

variable {n : Nat} (hn : Reads n)
include hn

theorem Reads.value (allowIn : Bool) : Gives Expr.Respects (Grammar.expression n allowIn) :=
  fun c => (hn.expression allowIn c).imp fun _ _ h => h.1

theorem Reads.assignment (allowIn : Bool) : Gives (Fits Precedence.assignment) (Grammar.climb n allowIn Precedence.assignment) :=
  fun c => (hn.climb allowIn _ c (Nat.le_refl _) (by decide)).imp fun _ _ h => h.1

/-! ## Statements -/

theorem reads_statement : Gives Stmt.Respects (statement (n + 1)) := by
  intro m
  rw [statement]
  refine .any fun _ _ => .any fun k _ => ?_
  split
  · exact .any fun _ _ => (hn.declarators true #[] trivial).bind fun ds _ hds => .any fun _ _ => .close hds
  · exact .throws
  · exact .throws
  · exact (hn.function true).bind fun f _ hf => .close hf
  · exact hn.branch.bind fun k _ hk => .close hk
  · exact hn.switch.bind fun k _ hk => .close hk
  · exact .any fun _ _ => hn.parenthesized.bind fun e _ he => hn.statement.bind fun s _ hs => .close ⟨he, hs⟩
  · refine .any fun _ _ => hn.statement.bind fun s _ hs => .any fun _ _ => hn.parenthesized.bind fun e _ he =>
      .any fun c _ => ?_
    extract_lets jp
    have hjp : ∀ u, Gives Stmt.Respects (jp u) := fun _ _ => .close ⟨he, hs⟩
    split
    · exact .any hjp
    · exact hjp () _
  · exact hn.forLoop.bind fun k _ hk => .close hk
  · refine .any fun _ _ => .any fun t _ => ?_
    split
    · exact .any fun _ _ => .close trivial
    · exact (hn.value true).bind fun e _ he => .any fun _ _ => .close he
  · exact .any fun _ _ => .any fun _ _ => .close trivial
  · exact .any fun _ _ => .any fun _ _ => .close trivial
  · refine .any fun _ _ => .any fun t _ => ?_
    split
    · exact .throws_bind
    · exact (hn.value true).bind fun e _ he => .any fun _ _ => .close he
  · exact hn.attempt.bind fun k _ hk => .close hk
  · exact .any fun _ _ => hn.parenthesized.bind fun e _ he => hn.statement.bind fun s _ hs => .close ⟨he, hs⟩
  · exact .any fun _ _ => .any fun _ _ => .close trivial
  · exact hn.block.bind fun body _ hb => .close hb
  · exact .any fun _ _ => .close trivial
  · exact (hn.value true).bind fun e _ he => hn.labelled _ e he _

theorem reads_labelled (start : Span) (e : Expr) (he : e.Respects) :
    Gives Stmt.Respects (labelled (n + 1) start e) := by
  intro m
  rw [labelled]
  refine .any fun c _ => ?_
  split
  · refine .any fun _ _ => hn.statement.bind fun s _ hs => ?_
    obtain ⟨labels, span, kind⟩ := s
    dsimp only
    split
    · exact .throws_bind
    · exact .pure hs
  · exact .any fun _ _ => .close he

theorem reads_statements (stop : ListEnd) (before : Array Stmt) (h : bodyRespects before.toList) :
    Gives bodyRespects (statements (n + 1) stop before) := by
  intro m
  rw [statements]
  refine .any fun k _ => ?_
  split
  · exact .pure h
  · exact hn.statement.bind fun s _ hs => hn.statements stop _ (bodyRespects_push.2 ⟨h, hs⟩) _

theorem reads_block : Gives bodyRespects (block (n + 1)) := by
  intro m
  rw [block]
  exact .any fun _ _ => (hn.statements .block #[] trivial).bind fun body _ hb => .any fun _ _ => .pure hb

theorem reads_declarators (allowIn : Bool) (before : Array Declarator) (h : declaratorsRespect before.toList) :
    Gives declaratorsRespect (declarators (n + 1) allowIn before) := by
  intro m
  rw [declarators]
  refine .any fun id _ => .any fun c _ => ?_
  extract_lets jp
  have hjp : ∀ init m, optionRespects init → Leads (jp init) m fun ds _ => declaratorsRespect ds := by
    intro init m hinit
    have hds : declaratorsRespect (before.push ⟨id, init⟩).toList := declaratorsRespect_push.2 ⟨h, hinit⟩
    refine .any fun more _ => ?_
    split
    · exact .any fun _ _ => hn.declarators allowIn _ hds _
    · exact .pure hds
  split
  · exact .any fun _ _ => (hn.assignment allowIn).bind fun e m he => hjp (some e) m he.2
  · exact hjp none _ trivial

theorem reads_function (requireName : Bool) : Gives FunctionTree.Respects (function (n + 1) requireName) := by
  intro m
  rw [function]
  refine .any fun start _ => .any fun _ _ => .any fun k _ => ?_
  extract_lets jp
  have hjp : ∀ id, Gives FunctionTree.Respects (jp id) := by
    intro id m
    refine .any fun _ _ => .any fun none _ => ?_
    extract_lets jp
    have hjp : ∀ params, Gives FunctionTree.Respects (jp params) := fun params _ =>
      .any fun _ _ => .any fun _ _ => (hn.statements .block #[] trivial).bind fun body _ hb => .any fun _ _ =>
        .any fun c _ => .pure hb
    split
    · exact .any hjp
    · exact .any hjp
  split
  · exact .any hjp
  · split
    · exact .any hjp
    · exact .any hjp

theorem reads_branch : Gives StmtKind.Respects (branch (n + 1)) := by
  intro m
  rw [branch]
  refine .any fun _ _ => hn.parenthesized.bind fun test _ ht => hn.statement.bind fun s _ hs => .any fun other _ => ?_
  split
  · exact .any fun _ _ => hn.statement.bind fun s' _ hs' => .pure ⟨ht, hs, hs'⟩
  · exact .pure ⟨ht, hs, trivial⟩

theorem reads_switch : Gives StmtKind.Respects (switch (n + 1)) := by
  intro m
  rw [switch]
  exact .any fun _ _ => hn.parenthesized.bind fun e _ he => .any fun _ _ => (hn.clauses #[] trivial).bind fun cs _ hcs =>
    .any fun _ _ => .pure ⟨he, hcs⟩

theorem reads_clauses (before : Array SwitchCase) (h : casesRespect before.toList) :
    Gives casesRespect (clauses (n + 1) before) := by
  intro m
  rw [clauses]
  refine .any fun k _ => ?_
  split
  · exact .pure h
  · extract_lets jp jpDefault
    have hjp : ∀ test m, optionRespects test → Leads (jp test) m fun cs _ => casesRespect cs := fun test _ ht =>
      (hn.statements .clause #[] trivial).bind fun body _ hb => hn.clauses _ (casesRespect_push.2 ⟨h, ht, hb⟩) _
    split
    · exact .any fun _ _ => (hn.value true).bind fun e _ he => .any fun _ m => hjp (some e) m he
    · split
      · refine .any fun _ _ => .any fun _ _ => ?_
        split
        · exact .throws_bind
        · exact hjp none _ trivial
      · exact .throws_bind

/-! ## Loops and handlers -/

theorem reads_forLoop : Gives StmtKind.Respects (forLoop (n + 1)) := by
  intro m
  rw [forLoop]
  refine .any fun _ _ => .any fun _ _ => .any fun k _ => ?_
  split
  · exact hn.countedLoop none trivial _
  · exact .throws
  · exact .throws
  · refine .any fun _ _ => (hn.declarators false #[] trivial).bind fun ds _ hds => .any fun isIn _ => ?_
    split
    case h_1 d =>
      obtain ⟨_, _⟩ := d
      exact hn.keyLoop (.declare ⟨_, _⟩) hds.1 _
    case h_2 =>
      exact hn.countedLoop (some (.declare ds)) hds _
  · refine (hn.value false).bind fun e _ he => .any fun isIn _ => ?_
    split
    · split
      case isTrue hreference => exact hn.keyLoop (.assign e) ⟨hreference, he⟩ _
      case isFalse => exact .throws
    · exact hn.countedLoop (some (.evaluate e)) he _

theorem reads_countedLoop (init : Option LoopInit) (hi : loopInitRespects init) :
    Gives StmtKind.Respects (countedLoop (n + 1) init) := by
  intro m
  have hexpression : Gives optionRespects (some <$> Grammar.expression n true) :=
    fun m => (hn.value true m).map fun _ _ he => he
  rw [countedLoop]
  refine .any fun _ _ => .any fun noTest _ => ?_
  extract_lets jp
  have hjp : ∀ test m, optionRespects test → Leads (jp test) m fun kind _ => kind.Respects := by
    intro test m ht
    refine .any fun _ _ => .any fun noUpdate _ => ?_
    extract_lets jp
    have hjp : ∀ update m, optionRespects update → Leads (jp update) m fun kind _ => kind.Respects := fun update _ hu =>
      .any fun _ _ => hn.statement.bind fun s _ hs => .pure ⟨⟨hi, ht, hu⟩, hs⟩
    split
    · exact hjp none _ trivial
    · exact hexpression.bind hjp
  split
  · exact hjp none _ trivial
  · exact hexpression.bind hjp

theorem reads_keyLoop (target : KeyTarget) (ht : target.Respects) :
    Gives StmtKind.Respects (keyLoop (n + 1) target) := by
  intro m
  rw [keyLoop]
  exact .any fun _ _ => (hn.value true).bind fun e _ he => .any fun _ _ => hn.statement.bind fun s _ hs =>
    .pure ⟨⟨ht, he⟩, hs⟩

theorem reads_attempt : Gives StmtKind.Respects (attempt (n + 1)) := by
  intro m
  rw [attempt]
  refine .any fun _ _ => hn.block.bind fun body _ hb => .any fun caught _ => ?_
  extract_lets jp
  have hjp : ∀ handler m, handlerRespects handler → Leads (jp handler) m fun kind _ => kind.Respects := by
    intro handler m hh
    refine .any fun finalized _ => ?_
    extract_lets jp
    have hjp : ∀ finalizer m, finalizerRespects finalizer → Leads (jp finalizer) m fun kind _ => kind.Respects := by
      intro finalizer m hf
      have hsome : ∀ h : handler.isSome ∨ finalizer.isSome, (StmtKind.attempt body handler finalizer).Respects :=
        fun h => ⟨h, hb, hh, hf⟩
      cases handler <;> cases finalizer
      · exact .throws_bind
      all_goals exact .pure (hsome (by simp))
    split
    · exact .any fun _ m => ((hn.block m).map fun _ _ h => h).bind hjp
    · exact hjp none _ trivial
  split
  · exact .any fun _ _ => .any fun _ _ => .any fun param _ => .any fun _ _ => hn.block.bind fun b m h =>
      hjp (some ⟨param, b⟩) m h
  · exact hjp none _ trivial

/-! ## Expressions -/

theorem reads_parenthesized : Gives Expr.Respects (parenthesized (n + 1)) := by
  intro m
  rw [parenthesized]
  exact .any fun _ _ => (hn.value true).bind fun e _ he => .any fun _ _ => .pure he

theorem reads_expression (allowIn : Bool) (c : Cursor) :
    Leads (expression (n + 1) allowIn) c fun e _ => e.Respects ∧ e.Names c.current := by
  rw [expression]
  refine (hn.climb allowIn _ c (Nat.le_refl _) (by decide)).bind fun e m he => .atMark_bind ?_
  split
  case isTrue hcomma =>
    exact (hn.commaList allowIn #[e] m ⟨he.1, trivial⟩ (.inr ⟨rfl, hcomma⟩)).imp fun _ _ h =>
      ⟨h.1, fun id hid => absurd hid (h.2 id)⟩
  case isFalse => exact .pure ⟨he.1.2, he.2.2⟩

theorem reads_commaList (allowIn : Bool) (before : Array Expr) (c : Cursor) (h : itemsRespect before.toList)
    (hc : 2 ≤ before.size ∨ before.size = 1 ∧ c.current.kind.isMark .comma = true) :
    Leads (commaList (n + 1) allowIn before) c fun e _ => e.Respects ∧ ∀ id, e ≠ .identifier id := by
  rw [commaList]
  refine .atMark_bind ?_
  split
  · refine .any fun _ _ => (hn.assignment allowIn).bind fun e m he => ?_
    refine hn.commaList allowIn _ m (itemsRespect_push.2 ⟨h, he⟩) (.inl ?_)
    rw [Array.size_push]
    omega
  case isFalse hcomma => exact .pure ⟨⟨hc.resolve_right fun h => hcomma h.2, h⟩, fun id hid => by cases hid⟩

theorem reads_climb (allowIn : Bool) (least : Nat) (c : Cursor) (hleast : Precedence.assignment ≤ least)
    (hunary : least ≤ Precedence.unary) :
    Leads (climb (n + 1) allowIn least) c fun e m => Fits least e ∧ m.Stops allowIn least ∧ e.Names c.current := by
  rw [climb]
  refine (hn.unary c).bind fun e m he => ?_
  exact (hn.climbFrom allowIn least e m hleast (he.1.of_le hunary) (takes_of_unary he.1.1)).imp fun _ _ h =>
    ⟨h.1, h.2.1, he.2.extends h.2.2⟩

theorem reads_climbFrom (allowIn : Bool) (least : Nat) (left : Expr) (c : Cursor) (hleast : Precedence.assignment ≤ least)
    (hl : Fits least left) (hc : c.Takes allowIn left) :
    Leads (climbFrom (n + 1) allowIn least left) c fun e m => Fits least e ∧ m.Stops allowIn least ∧ left.Extends e := by
  rw [climbFrom]
  refine .kind_bind ?_
  split
  case h_1 hnone =>
    refine .pure ⟨hl, fun op hop => ?_, .refl left⟩
    rw [Cursor.operator?, hnone] at hop
    cases hop
  case h_2 op hsome =>
    have hoperator : c.operator? allowIn = if (allowIn || op.kind != .binary .isIn) = true then some op else none := by
      rw [Cursor.operator?, hsome, Option.filter_some]
    split
    case isTrue hstop =>
      refine .pure ⟨hl, fun op' hop => ?_, .refl left⟩
      rw [hoperator] at hop
      split at hop
      case isTrue hin =>
        cases hop
        simp only [Bool.or_eq_true, Bool.and_eq_true, decide_eq_true_eq, bne_iff_ne, beq_iff_eq, Bool.not_eq_true'] at hstop hin
        exact hstop.elim id fun h => absurd h (by simp_all)
      case isFalse => cases hop
    case isFalse hgo =>
      simp only [Bool.or_eq_true, Bool.and_eq_true, decide_eq_true_eq, not_or, Nat.not_lt] at hgo
      obtain ⟨hprimary, hin⟩ := hgo
      have hin : (allowIn || op.kind != .binary .isIn) = true := by
        cases allowIn <;> simp_all
      have htakes := hc op (by rw [hoperator, if_pos hin])
      -- What the operator builds goes on as a left operand.
      have hbuild : ∀ operands m, (∀ e, op.build operands = .ok e → Fits least e ∧ m.Takes allowIn e) →
          Leads (build op operands >>= climbFrom n allowIn least) m fun e m =>
            Fits least e ∧ m.Stops allowIn least ∧ left.Extends e := by
        refine fun operands m h => Leads.build.bind fun e m' he => ?_
        obtain ⟨hbuilt, rfl⟩ := he
        obtain ⟨hfits, htakes⟩ := h e hbuilt
        exact (hn.climbFrom allowIn least e _ hleast hfits htakes).imp fun _ _ h =>
          ⟨h.1, h.2.1, .trans (.inr (Operator.build_ne_identifier hbuilt)) h.2.2⟩
      refine .any fun _ m => ?_
      rcases Operator.between?_cases hsome with ⟨o, rfl⟩ | ⟨o, rfl⟩ | ⟨o, p, rfl, hp⟩ | rfl | rfl
      · refine (hn.climb allowIn (o.power + 1) m ?_ o.power_bounds.2).bind fun r m hr => hbuild _ _ ?_
        · exact Nat.le_succ_of_le (Nat.le_trans (by decide) (Nat.le_of_lt o.power_bounds.1))
        rintro e ⟨⟩
        exact ⟨⟨hprimary, htakes.1, hr.1.1, hl.2, hr.1.2⟩, takes_of_stops o.power_bounds.1 hr.2.1⟩
      · refine (hn.climb allowIn (o.power + 1) m ?_ o.power_bounds.2).bind fun r m hr => hbuild _ _ ?_
        · exact Nat.le_succ_of_le (Nat.le_trans (by decide) (Nat.le_of_lt o.power_bounds.1))
        rintro e ⟨⟩
        exact ⟨⟨hprimary, htakes.1, hr.1.1, hl.2, hr.1.2⟩, takes_of_stops o.power_bounds.1 hr.2.1⟩
      · refine (hn.climb allowIn Precedence.assignment m (Nat.le_refl _) (by decide)).bind fun r m hr =>
          hbuild _ _ fun e he => ?_
        obtain ⟨hreference, rfl⟩ := ok_of_requireReference he
        exact ⟨⟨hprimary, ⟨by rw [hp]; rfl, hreference, hr.1.1⟩, hl.2, hr.1.2⟩,
          takes_of_stops_assignment (Nat.le_refl _) hr.2.1⟩
      · refine (hn.assignment true).bind fun a _ ha => .any fun _ m => ?_
        refine (hn.climb allowIn Precedence.assignment m (Nat.le_refl _) (by decide)).bind fun b m hb => hbuild _ _ ?_
        rintro e ⟨⟩
        have htest : Precedence.conditional < left.binds := htakes.2.resolve_right (by decide)
        exact ⟨⟨hprimary, ⟨htest, ha.1, hb.1.1⟩, hl.2, ha.2, hb.1.2⟩,
          takes_of_stops_assignment (Nat.le_of_lt (Nat.lt_succ_self _)) hb.2.1⟩
      · exact absurd hprimary (Nat.not_le_of_lt hleast)

theorem reads_unary (c : Cursor) : Leads (unary (n + 1)) c fun e _ => Fits Precedence.unary e ∧ e.Names c.current := by
  rw [unary]
  refine .kind_bind ?_
  split
  case h_1 op hop =>
    refine .any fun _ m => (hn.unary m).bind fun e _ he => Leads.build.imp fun e' _ he' => ⟨?_, ?_⟩
    · rcases Operator.before?_cases hop with ⟨o, rfl⟩ | ⟨o, rfl⟩
      · cases he'.1
        exact ⟨Nat.le_refl _, he.1⟩
      · obtain ⟨hreference, rfl⟩ := ok_of_requireReference he'.1
        exact ⟨Nat.le_refl _, hreference, he.1.2⟩
    · exact Expr.names_of_build he'.1
  case h_2 => exact (hn.updated c).imp fun e _ he => ⟨he.1.of_le (by decide), he.2⟩

theorem reads_updated (c : Cursor) : Leads (updated (n + 1)) c fun e _ => Fits Precedence.update e ∧ e.Names c.current := by
  rw [updated]
  refine (hn.leftHandSide c).bind fun e _ he => .any fun t _ => ?_
  split
  case h_1 op hop _ =>
    refine .any fun _ _ => Leads.build.imp fun e' _ he' => ⟨?_, Expr.names_of_build he'.1⟩
    obtain ⟨o, rfl⟩ := Operator.after?_cases hop
    obtain ⟨hreference, rfl⟩ := ok_of_requireReference he'.1
    exact ⟨Nat.le_refl _, hreference, he.1.2⟩
  case h_2 => exact .pure ⟨he.1.of_le (by decide), he.2⟩

theorem reads_leftHandSide (c : Cursor) :
    Leads (leftHandSide (n + 1)) c fun e _ => Fits Precedence.new e ∧ e.Names c.current := by
  have hsuffixes : ∀ {base m}, Fits Precedence.member base → base.Names c.current →
      Leads (suffixes n base) m fun e _ => Fits Precedence.new e ∧ e.Names c.current := fun hb hnames =>
    (hn.suffixes _ hb _).imp fun e _ he => ⟨he.1.of_le (by decide), hnames.extends he.2⟩
  rw [leftHandSide]
  refine .atWord_bind ?_
  split
  · refine (hn.newOperand _).bind fun e _ he => ?_
    have hnames : (Expr.new e).Names c.current := fun _ hid => by cases hid
    extract_lets node
    split
    · exact .pure ⟨⟨new_le_binds e, he.1, he.2.1⟩, hnames⟩
    case isFalse hbinds => exact hsuffixes ⟨Nat.le_of_not_lt hbinds, he.1, he.2.1⟩ hnames
  · exact (hn.primary _).bind fun e _ he => hsuffixes (he.1.1.of_le (by decide)) he.2

theorem reads_newOperand (c : Cursor) : Leads (newOperand (n + 1)) c fun e m =>
    e.FitsNew ∧ e.Respects ∧ (Precedence.member ≤ (Expr.new e).binds ∨ m.EndsSuffixes) := by
  rw [newOperand]
  refine .any fun _ _ => .any fun isNew _ => ?_
  extract_lets jp
  have hjp : ∀ base m, Fits Precedence.new base → base.callless = true → Precedence.member ≤ base.binds ∨ m.EndsSuffixes →
      Leads (jp base) m fun e m =>
        e.FitsNew ∧ e.Respects ∧ (Precedence.member ≤ (Expr.new e).binds ∨ m.EndsSuffixes) := by
    intro base m hb hless hm
    refine (hn.accesses base m hb hless hm).bind fun target m ht => .atMark_bind ?_
    obtain ⟨hfits, hless, haccess, hmember⟩ := ht
    split
    case isTrue hcalled =>
      have hmember := hmember.resolve_right fun h => absurd (h.2.symm.trans hcalled) Bool.false_ne_true
      refine (hn.call target ⟨hmember, hfits.2⟩ _).imp fun e _ he => ?_
      obtain ⟨hrespects, arguments, rfl⟩ := he
      exact ⟨hless, hrespects, .inl (by decide : Precedence.member ≤ Precedence.greatest)⟩
    case isFalse hcalled =>
      exact .pure ⟨fitsNew_of_callless hfits.1 hless, hfits.2, .inr ⟨haccess, Bool.eq_false_iff.2 hcalled⟩⟩
  split
  · rw [map_eq_pure_bind, bind_assoc]
    exact (hn.newOperand _).bind fun e m he => hjp (.new e) m ⟨new_le_binds e, he.1, he.2.1⟩ rfl he.2.2
  · exact (hn.primary _).bind fun e m he =>
      hjp e m (he.1.1.of_le (by decide)) he.1.2 (.inl (Nat.le_trans (by decide) he.1.1.1))

theorem reads_suffixes (base : Expr) (hb : Fits Precedence.member base) :
    Gives (fun e => Fits Precedence.member e ∧ base.Extends e) (suffixes (n + 1) base) := by
  intro m
  have hgo : ∀ {e m}, Fits Precedence.member e → base.Extends e →
      Leads (suffixes n e) m fun e _ => Fits Precedence.member e ∧ base.Extends e := fun he hbase =>
    (hn.suffixes _ he _).imp fun _ _ h => ⟨h.1, hbase.trans h.2⟩
  rw [suffixes]
  refine .any fun k _ => ?_
  split
  · exact (hn.access base hb).bind fun e _ he => hgo he.1 he.2.2
  · exact (hn.access base hb).bind fun e _ he => hgo he.1 he.2.2
  · refine (hn.call base hb).bind fun e _ he => ?_
    obtain ⟨hrespects, arguments, rfl⟩ := he
    exact hgo ⟨Nat.le_refl _, hrespects⟩ (.inr fun _ hid => by cases hid)
  · exact .pure ⟨hb, .refl base⟩

theorem reads_accesses (base : Expr) (c : Cursor) (hb : Fits Precedence.new base) (hless : base.callless = true)
    (hc : Precedence.member ≤ base.binds ∨ c.EndsSuffixes) : Leads (accesses (n + 1) base) c fun e m =>
      Fits Precedence.new e ∧ e.callless = true ∧ m.EndsAccesses ∧ (Precedence.member ≤ e.binds ∨ m.EndsSuffixes) := by
  rw [accesses]
  refine .kind_bind ?_
  -- Where an access follows, the base binds tightly enough to be its object.
  have haccess : ¬ c.EndsAccesses → Leads (Grammar.access n base >>= Grammar.accesses n) c fun e m =>
      Fits Precedence.new e ∧ e.callless = true ∧ m.EndsAccesses ∧ (Precedence.member ≤ e.binds ∨ m.EndsSuffixes) := by
    refine fun hk => (hn.access base ⟨hc.resolve_right fun h => hk h.1, hb.2⟩).bind fun e m he => ?_
    exact hn.accesses e m (he.1.of_le (by decide)) (he.2.1.trans hless) (.inl he.1.1)
  split
  case h_1 h => exact haccess fun hends => by simp [Cursor.EndsAccesses, h, TokenKind.isMark] at hends
  case h_2 h => exact haccess fun hends => by simp [Cursor.EndsAccesses, h, TokenKind.isMark] at hends
  case h_3 hdot hbracket =>
    exact .pure ⟨hb, hless, ⟨Bool.eq_false_iff.2 fun h => hdot (TokenKind.isMark_iff.1 h),
      Bool.eq_false_iff.2 fun h => hbracket (TokenKind.isMark_iff.1 h)⟩, hc⟩

theorem reads_access (base : Expr) (hb : Fits Precedence.member base) :
    Gives (fun e => Fits Precedence.member e ∧ e.callless = base.callless ∧ base.Extends e) (access (n + 1) base) := by
  intro m
  rw [access]
  refine .any fun dot _ => ?_
  split
  · refine .any fun _ _ => .any fun property _ => Leads.build.imp fun e _ he => ?_
    cases he.1
    exact ⟨⟨Nat.le_refl _, hb⟩, rfl, .inr fun _ hid => by cases hid⟩
  · refine .any fun _ _ => (hn.value true).bind fun key _ hk => .any fun _ _ => Leads.build.imp fun e _ he => ?_
    cases he.1
    exact ⟨⟨Nat.le_refl _, hb.1, hb.2, hk⟩, rfl, .inr fun _ hid => by cases hid⟩

theorem reads_call (callee : Expr) (hc : Fits Precedence.member callee) :
    Gives (fun e => e.Respects ∧ ∃ arguments, e = .call callee arguments) (call (n + 1) callee) := by
  intro m
  rw [call]
  refine .any fun _ _ => .any fun empty _ => ?_
  split
  · refine .any fun _ _ => Leads.build.imp fun e _ he => ?_
    cases he.1
    exact ⟨⟨hc.1, hc.2, trivial⟩, none, rfl⟩
  · refine (hn.value true).bind fun a _ ha => .any fun _ _ => Leads.build.imp fun e _ he => ?_
    cases he.1
    exact ⟨⟨hc.1, hc.2, ha⟩, some a, rfl⟩

theorem reads_primary (c : Cursor) :
    Leads (primary (n + 1)) c fun e _ => (Fits Precedence.greatest e ∧ e.callless = true) ∧ e.Names c.current := by
  rw [primary]
  refine .token_bind ?_
  split
  case h_6 name h =>
    refine .any fun _ _ => .pure ⟨⟨⟨Nat.le_refl _, trivial⟩, rfl⟩, fun id hid => ?_⟩
    cases hid
    exact h
  case h_8 =>
    refine hn.parenthesized.bind fun e _ he => Leads.build.imp fun e' _ he' => ?_
    cases he'.1
    exact ⟨⟨⟨Nat.le_refl _, he⟩, rfl⟩, fun _ hid => by cases hid⟩
  case h_9 =>
    exact .any fun _ _ => (hn.elements #[] trivial).bind fun es _ hes => .any fun _ _ =>
      .pure ⟨⟨⟨Nat.le_refl _, hes⟩, rfl⟩, fun _ hid => by cases hid⟩
  case h_10 =>
    exact .any fun _ _ => (hn.properties #[] trivial).bind fun ps _ hps => .any fun _ _ =>
      .pure ⟨⟨⟨Nat.le_refl _, hps⟩, rfl⟩, fun _ hid => by cases hid⟩
  case h_11 =>
    exact (hn.function false).bind fun f _ hf => .pure ⟨⟨⟨Nat.le_refl _, hf⟩, rfl⟩, fun _ hid => by cases hid⟩
  case h_12 | h_13 => exact .throws
  all_goals exact .any fun _ _ => .pure ⟨⟨⟨Nat.le_refl _, trivial⟩, rfl⟩, fun _ hid => by cases hid⟩

theorem reads_elements (before : Array (Option Expr)) (h : elementsRespect before.toList) :
    Gives elementsRespect (elements (n + 1) before) := by
  intro m
  rw [elements]
  refine .any fun k _ => ?_
  split
  · exact .pure h
  · split
    · exact .any fun _ _ => hn.elements _ (elementsRespect_push.2 ⟨h, fun _ he => by cases he⟩) _
    · refine (hn.assignment true).bind fun e _ he => .any fun last _ => ?_
      extract_lets jp
      have hjp : ∀ u, Gives elementsRespect (jp u) := fun _ =>
        hn.elements _ (elementsRespect_push.2 ⟨h, fun x hx => Option.some.inj hx ▸ he⟩)
      split
      · exact hjp () _
      · exact .any hjp

theorem reads_properties (before : Array (String × Expr)) (h : propertiesRespect before.toList) :
    Gives propertiesRespect (properties (n + 1) before) := by
  intro m
  rw [properties]
  refine .any fun k _ => ?_
  split
  · exact .pure h
  · extract_lets jp
    have hjp : ∀ key, Gives propertiesRespect (jp key) := by
      intro key m
      refine .any fun _ _ => (hn.assignment true).bind fun e _ he => .any fun last _ => ?_
      extract_lets jp
      have hjp : ∀ u, Gives propertiesRespect (jp u) := fun _ => hn.properties _ (propertiesRespect_push.2 ⟨h, he⟩)
      split
      · exact hjp () _
      · exact .any hjp
    split
    · exact .any fun _ _ => .any hjp
    · exact .any fun _ _ => .any hjp
    · exact .any hjp

end

theorem reads : ∀ n, Reads n
  | 0 => reads_zero
  | n + 1 =>
    have hn := reads n
    ⟨reads_statement hn, reads_labelled hn, reads_statements hn, reads_block hn, reads_parenthesized hn,
      reads_declarators hn, reads_function hn, reads_branch hn, reads_switch hn, reads_clauses hn, reads_forLoop hn,
      reads_countedLoop hn, reads_keyLoop hn, reads_attempt hn, reads_expression hn, reads_commaList hn, reads_climb hn,
      reads_climbFrom hn, reads_unary hn, reads_updated hn, reads_leftHandSide hn, reads_newOperand hn,
      reads_suffixes hn, reads_accesses hn, reads_access hn, reads_call hn, reads_primary hn, reads_elements hn,
      reads_properties hn⟩

theorem expression_names (n : Nat) (c : Cursor) (allowIn : Bool) :
    Leads (expression n allowIn) c fun e _ => e.Names c.current :=
  ((reads n).expression allowIn c).imp fun _ _ h => h.2

end Grammar

/-- **A program that was read respects the operator table.** -/
theorem Program.parse_respects {source : String} {p : Program} (h : Program.parse source = .ok p) : bodyRespects p.body := by
  simp only [Program.parse, Program.ofTokens, bind, Except.bind] at h
  split at h
  case h_1 => cases h
  case h_2 r hr =>
    cases h
    exact (Grammar.reads _).statements .program #[] trivial _ _ _ hr

/-- **A program that was read is well formed.** -/
theorem Program.parse_guarded {source : String} {p : Program} (h : Program.parse source = .ok p) :
    bodyHolds FunctionTree.Guarded p.body := bodyRespects_guarded (Program.parse_respects h)

end ScriptEngine
