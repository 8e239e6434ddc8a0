/-
Reading goes forward. A function of the grammar that does not fail leaves the
cursor further ahead, and what it calls starts further ahead or ranks below it
at the same token. So what a call gives depends only on calls with a smaller
weight, the number of tokens that remain and the rank. Nor does it look at
places: from a cursor without places it gives the same, without places. In a
text, it places what it reads behind what was there before. `Steps` says all
this of a part of a function. Main statements: `known`, `read_agrees`,
`agreeBelow_of_le` and `endBelow_of_le`.
-/
import ScriptEngine.Proofs.Tree.Placeless
import ScriptEngine.Proofs.Tree.Spread

namespace ScriptEngine

namespace Grammar

open Parse

/-! ## Calls -/

/-- The functions of the grammar with what they are called with. -/
inductive Production : Type → Type
  | statement : Production Stmt
  | labelled (start : Span) (e : Expr) : Production Stmt
  | statements (stop : ListEnd) (before : Array Stmt) : Production (List Stmt)
  | block : Production (List Stmt)
  | parenthesized : Production Expr
  | declarators (allowIn : Bool) (before : Array Declarator) : Production (List Declarator)
  | parameters (before : Array Identifier) : Production (List Identifier)
  | function (requireName : Bool) : Production FunctionTree
  | branch : Production StmtKind
  | switch : Production StmtKind
  | clauses (before : Array SwitchCase) : Production (List SwitchCase)
  | forLoop : Production StmtKind
  | countedLoop (init : Option LoopInit) : Production StmtKind
  | keyLoop (target : KeyTarget) : Production StmtKind
  | attempt : Production StmtKind
  | expression (allowIn : Bool) : Production Expr
  | commaList (allowIn : Bool) (before : Array Expr) : Production Expr
  | climb (allowIn : Bool) (least : Nat) : Production Expr
  | climbFrom (allowIn : Bool) (least : Nat) (left : Expr) : Production Expr
  | unary : Production Expr
  | updated : Production Expr
  | leftHandSide : Production Expr
  | newOperand : Production Expr
  | suffixes (base : Expr) : Production Expr
  | accesses (base : Expr) : Production Expr
  | access (base : Expr) : Production Expr
  | call (callee : Expr) : Production Expr
  | primary : Production Expr
  | elements (before : Array (Option Expr)) : Production (List (Option Expr))
  | properties (before : Array (String × Expr)) : Production (List (String × Expr))

namespace Production

def read : Production α → Nat → Parse α
  | .statement => Grammar.statement
  | .labelled start e => fun n => Grammar.labelled n start e
  | .statements stop before => fun n => Grammar.statements n stop before
  | .block => Grammar.block
  | .parenthesized => Grammar.parenthesized
  | .declarators allowIn before => fun n => Grammar.declarators n allowIn before
  | .parameters before => fun n => Grammar.parameters n before
  | .function requireName => fun n => Grammar.function n requireName
  | .branch => Grammar.branch
  | .switch => Grammar.switch
  | .clauses before => fun n => Grammar.clauses n before
  | .forLoop => Grammar.forLoop
  | .countedLoop init => fun n => Grammar.countedLoop n init
  | .keyLoop target => fun n => Grammar.keyLoop n target
  | .attempt => Grammar.attempt
  | .expression allowIn => fun n => Grammar.expression n allowIn
  | .commaList allowIn before => fun n => Grammar.commaList n allowIn before
  | .climb allowIn least => fun n => Grammar.climb n allowIn least
  | .climbFrom allowIn least left => fun n => Grammar.climbFrom n allowIn least left
  | .unary => Grammar.unary
  | .updated => Grammar.updated
  | .leftHandSide => Grammar.leftHandSide
  | .newOperand => Grammar.newOperand
  | .suffixes base => fun n => Grammar.suffixes n base
  | .accesses base => fun n => Grammar.accesses n base
  | .access base => fun n => Grammar.access n base
  | .call callee => fun n => Grammar.call n callee
  | .primary => Grammar.primary
  | .elements before => fun n => Grammar.elements n before
  | .properties before => fun n => Grammar.properties n before

def rank : Production α → Nat
  | .statements .. => 9
  | .statement => 8
  | .expression .. | .elements .. => 7
  | .climb .. => 6
  | .unary => 5
  | .updated => 4
  | .leftHandSide => 3
  | .newOperand => 2
  | .primary | .suffixes .. | .accesses .. | .branch | .switch | .attempt => 1
  | _ => 0

/-- The lists and what continues an operand may read no token; all else reads one. -/
def consumes : Production α → Bool
  | .labelled .. | .statements .. | .clauses .. | .commaList .. | .climbFrom .. | .suffixes .. | .accesses ..
  | .elements .. | .properties .. => false
  | _ => true

theorem rank_lt (d : Production α) : d.rank < 10 := by
  cases d <;> exact Nat.le_of_ble_eq_true rfl

def placeless : Production α → Production α
  | .labelled _ e => .labelled .nowhere e.placeless
  | .statements stop before => .statements stop (before.map Stmt.placeless)
  | .declarators allowIn before => .declarators allowIn (before.map Declarator.placeless)
  | .parameters before => .parameters (before.map Identifier.placeless)
  | .clauses before => .clauses (before.map SwitchCase.placeless)
  | .countedLoop init => .countedLoop (loopInitPlaceless init)
  | .keyLoop target => .keyLoop target.placeless
  | .commaList allowIn before => .commaList allowIn (before.map Expr.placeless)
  | .climbFrom allowIn least left => .climbFrom allowIn least left.placeless
  | .suffixes base => .suffixes base.placeless
  | .accesses base => .accesses base.placeless
  | .access base => .access base.placeless
  | .call callee => .call callee.placeless
  | .elements before => .elements (before.map optionPlaceless)
  | .properties before => .properties (before.map (Prod.map id Expr.placeless))
  | d => d

def forget : Production α → α → α
  | .statement | .labelled .. => Stmt.placeless
  | .statements .. | .block => bodyPlaceless
  | .declarators .. => declaratorsPlaceless
  | .parameters _ => List.map Identifier.placeless
  | .function _ => FunctionTree.placeless
  | .branch | .switch | .forLoop | .countedLoop _ | .keyLoop _ | .attempt => StmtKind.placeless
  | .clauses _ => casesPlaceless
  | .elements _ => elementsPlaceless
  | .properties _ => propertiesPlaceless
  | .parenthesized | .expression _ | .commaList .. | .climb .. | .climbFrom .. | .unary | .updated | .leftHandSide
  | .newOperand | .suffixes _ | .accesses _ | .access _ | .call _ | .primary => Expr.placeless

/-- What a call takes over from the calls before it. -/
@[grind =] def inputs : Production α → List Node
  | .labelled _ e => [.expr e]
  | .statements _ before => before.toList.map .stmt
  | .declarators _ before => before.toList.flatMap Declarator.children
  | .parameters before => before.toList.map .identifier
  | .clauses before => before.toList.flatMap SwitchCase.children
  | .countedLoop init => init.toList.flatMap LoopInit.children
  | .keyLoop target => target.children
  | .commaList _ before => before.toList.map .expr
  | .climbFrom _ _ left => [.expr left]
  | .suffixes base | .accesses base | .access base | .call base => [.expr base]
  | .elements before => before.toList.flatMap fun e => e.toList.map .expr
  | .properties before => before.toList.map fun p => .expr p.2
  | _ => []

@[grind =] def outputs : Production α → α → List Node
  | .statement, s => [.stmt s]
  | .labelled .., s => s.kind.children
  | .statements .., ss | .block, ss => [.body ss]
  | .declarators .., ds => ds.flatMap Declarator.children
  | .parameters _, ids => ids.map .identifier
  | .function _, f => [.function f]
  | .branch, kind | .switch, kind | .forLoop, kind | .countedLoop _, kind | .keyLoop _, kind | .attempt, kind => kind.children
  | .clauses _, cases => cases.flatMap SwitchCase.children
  | .elements _, es => es.flatMap fun e => e.toList.map .expr
  | .properties _, ps => ps.map fun p => .expr p.2
  | .parenthesized, e | .expression _, e | .commaList .., e | .climb .., e | .climbFrom .., e | .unary, e | .updated, e
  | .leftHandSide, e | .newOperand, e | .suffixes _, e | .accesses _, e | .access _, e | .call _, e | .primary, e => [.expr e]

/-- Where a call may start. Those that skip their first token need one, a statement goes on behind its start, and
the statements that were read before are in order. -/
def Ready : Production α → Cursor → Prop
  | .branch, c | .switch, c | .forLoop, c | .attempt, c | .function _, c | .newOperand, c => c.current.kind.isEof = false
  | .labelled start _, c => start.start ≤ c.current.span.start
  | .statements _ before, _ => before.toList.Pairwise fun s t => s.span.stop ≤ t.span.start
  | _, _ => True

def isFresh : Production α → Bool
  | .statements _ before => before.isEmpty
  | .declarators _ before => before.isEmpty
  | .parameters before => before.isEmpty
  | .clauses before => before.isEmpty
  | .elements before => before.isEmpty
  | .properties before => before.isEmpty
  | .countedLoop init => init.isNone
  | .labelled .. | .keyLoop _ | .commaList .. | .climbFrom .. | .suffixes _ | .accesses _ | .access _ | .call _ => false
  | _ => true

def skips : Production α → Bool
  | .branch | .switch | .forLoop | .attempt | .function _ | .newOperand => true
  | _ => false

section

variable {d : Production α} (h : d.isFresh = true)
include h

theorem inputs_of_isFresh : d.inputs = [] := by
  cases d <;> first | rfl | cases h | (obtain rfl := Array.isEmpty_iff.1 h; rfl) | (rw [Option.isNone_iff_eq_none.1 h]; rfl)

theorem placeless_of_isFresh : d.placeless = d := by
  cases d <;> first | rfl | cases h | (obtain rfl := Array.isEmpty_iff.1 h; simp [placeless]) | (rw [Option.isNone_iff_eq_none.1 h]; rfl)

theorem ready_of_isFresh {c : Cursor} (hc : d.skips = true → c.current.kind.isEof = false) : d.Ready c := by
  cases d <;> first | trivial | exact hc rfl | (obtain rfl := Array.isEmpty_iff.1 h; exact .nil)

end

end Production

/-- The statement spans what was read from `start` on, and its first label is so. -/
structure Spans (start : Span) (Label : String → Prop) (s : Stmt) (m : Cursor) : Prop where
  span : s.span = start.cover m.last
  label : ∀ name rest, s.labels = name :: rest → Label name

def Production.Closes : Production α → Cursor → α → Cursor → Prop
  | .statement, c, s, m => Spans c.current.span (fun name => c.current.kind = .identifier name) s m
  | .labelled start e, _, s, m => Spans start (fun name => ∃ span, e = .identifier ⟨name, span⟩) s m
  | _, _, _, _ => True

/-- The calls with this much fuel that do not fail go forward. -/
def Progress (n : Nat) : Prop :=
  ∀ (α : Type) (d : Production α) (c : Cursor), c.Closed → ∀ a m, d.read n c = .ok (a, m) → c.Past d.consumes m

/-- From a cursor without places the calls with this much fuel give what they give from the cursor itself,
without places; they fail from one where they fail from the other. -/
def Forgetful (n : Nat) : Prop :=
  ∀ (α : Type) (d : Production α) (c : Cursor), c.Closed →
    (d.placeless.read n c.placeless).toOption = (d.read n c).toOption.map (Prod.map d.forget Cursor.placeless)

/-- In a text, the calls with this much fuel place what they read behind what was there before. -/
def Places (n : Nat) : Prop :=
  ∀ (source : String) (α : Type) (d : Production α) (o : Cursor) (nodes : List Node) (c : Cursor), d.inputs ⊆ nodes →
    d.Ready c → Spread source o nodes c →
    Leads (d.read n) c fun a m => Spread source o (nodes ++ d.outputs a) m ∧ d.Closes c a m

structure Known (n : Nat) : Prop where
  progress : Progress n
  forgetful : Forgetful n
  places : Places n

/-- The calls below a weight give the same with two amounts of fuel. -/
def AgreeBelow (n n' w : Nat) : Prop :=
  ∀ (α : Type) (d : Production α) (c : Cursor), c.Closed → c.weight d.rank < w → d.read n c = d.read n' c

/-- The calls below a weight do not run out of fuel. -/
def EndBelow (n w : Nat) : Prop :=
  ∀ (α : Type) (d : Production α) (c : Cursor), c.Closed → c.weight d.rank < w → d.read n c ≠ .error .exhausted

/-! ## Parts of a body -/

/-- Where a body that began at `c` has come to, and what holds there in the case `T`. -/
structure Reached (T : Prop) (c : Cursor) (moved : Bool) (P : Cursor → Prop) (m : Cursor) : Prop where
  past : c.Past moved m
  holds : T → P m

abbrev Gathered (T : Prop) (source : String) (o c : Cursor) (moved : Bool) (nodes : List Node) (m : Cursor) : Prop :=
  Reached T c moved (Spread source o nodes) m

namespace Reached

variable {T : Prop} {b : Bool} {c m o : Cursor} {source : String} {nodes more : List Node}

theorem imp {P Q : Cursor → Prop} (h : Reached T c b P m) (hQ : T → P m → Q m) : Reached T c b Q m :=
  ⟨h.past, fun t => hQ t (h.holds t)⟩

variable (h : Gathered T source o c b nodes m)
include h

theorem sub (hsub : more ⊆ nodes) : Gathered T source o c b more m := h.imp fun _ hm => hm.sub hsub

theorem expr {e : Expr} (he : more ++ e.children ⊆ nodes) : Gathered T source o c b (more ++ [Node.expr e]) m :=
  h.imp fun _ hm => hm.expr he

theorem function {f : FunctionTree} (hf : more ++ f.children ⊆ nodes) :
    Gathered T source o c b (more ++ [Node.function f]) m := h.imp fun _ hm => hm.function hf

theorem identifier {name : String} (hk : Scanner.spelling? m.current.kind = some name) :
    Gathered T source o c b (nodes ++ [Node.identifier ⟨name, m.current.span⟩]) m := h.imp fun _ hm => hm.identifier hk

theorem skip (hk : T → m.current.kind.isEof = false) : Gathered T source o c b nodes m.next :=
  ⟨h.past.next, fun t => (h.holds t).next (hk t)⟩

end Reached

/-- A part of a body that runs at `m`, with two amounts of fuel and without places. The body began at `c` with a
rank. Where the part does not fail it ends behind `c`, in the case `T` with a result as `Q` says; it calls nothing that
weighs as much as the body, and it does not look at places. -/
structure Steps (T : Prop) (n n' : Nat) (c : Cursor) (rank : Nat) (moved : Bool) (f : α → α) (Q : α → Cursor → Prop)
    (x y z : Parse α) (m : Cursor) : Prop where
  reads : ∀ a m', x m = .ok (a, m') → c.Past moved m'
  leads : T → Leads x m Q
  agrees : AgreeBelow n n' (c.weight rank) → x m = y m
  ends : EndBelow n (c.weight rank) → x m ≠ .error .exhausted
  forgets : (z m.placeless).toOption = (x m).toOption.map (Prod.map f Cursor.placeless)

namespace Steps

variable {T : Prop} {n n' rank : Nat} {b b' : Bool} {c m o : Cursor} {f : α → α} {g : β → β} {Q Q' : α → Cursor → Prop}
  {R : β → Cursor → Prop} {x y z : Parse α} {source : String} {nodes more : List Node}

theorem bind {k k' l : α → Parse β} (hx : Steps T n n' c rank b f Q x y z m)
    (hk : ∀ a m', Reached T c b (Q a) m' → Steps T n n' c rank b' g R (k a) (k' a) (l (f a)) m') :
    Steps T n n' c rank b' g R (x >>= k) (y >>= k') (z >>= l) m := by
  have hk (p : α × Cursor) (hr : x m = .ok p) := hk p.1 p.2 ⟨hx.reads p.1 p.2 hr, fun t => hx.leads t p.1 p.2 hr⟩
  refine ⟨fun a m' h => ?_, fun t a m' h => ?_, fun h => ?_, fun h => ?_, ?_⟩
  · obtain ⟨a₁, m₁, h₁, h₂⟩ := bind_eq_ok h
    exact (hk _ h₁).reads a m' h₂
  · obtain ⟨a₁, m₁, h₁, h₂⟩ := bind_eq_ok h
    exact (hk _ h₁).leads t a m' h₂
  · change (x m >>= fun p => k p.1 p.2) = (y m >>= fun p => k' p.1 p.2)
    rw [← hx.agrees h]
    cases hr : x m with
    | error e => rfl
    | ok p => exact (hk p hr).agrees h
  · change (x m >>= fun p => k p.1 p.2) ≠ .error .exhausted
    have hends := hx.ends h
    cases hr : x m with
    | error e =>
      rw [hr] at hends
      intro he
      cases he
      exact hends rfl
    | ok p => exact (hk p hr).ends h
  · have h := hx.forgets
    change (z m.placeless >>= fun p => l p.1 p.2).toOption = (x m >>= fun p => k p.1 p.2).toOption.map _
    cases hr : x m <;> cases hs : z m.placeless <;> rw [hr, hs] at h <;> cases h
    · rfl
    · exact (hk _ hr).forgets

theorem imp (h : Steps T n n' c rank b f Q x y z m) (hQ : T → ∀ a m', Q a m' → Q' a m') :
    Steps T n n' c rank b f Q' x y z m :=
  ⟨h.reads, fun t => (h.leads t).imp (hQ t), h.agrees, h.ends, h.forgets⟩

theorem and_true (h : Steps T n n' c rank b f Q x y z m) : Steps T n n' c rank b f (fun a m' => Q a m' ∧ True) x y z m :=
  h.imp fun _ _ _ h => ⟨h, trivial⟩

theorem remember (h : Steps T n n' c rank b f Q x y z m) :
    Steps T n n' c rank b f (fun a m' => x m = .ok (a, m') ∧ Q a m') x y z m :=
  ⟨h.reads, fun t a m' hr => ⟨hr, h.leads t a m' hr⟩, h.agrees, h.ends, h.forgets⟩

theorem sub {F : α → List Node} (h : Steps T n n' c rank b f (fun a => Spread source o (nodes ++ F a)) x y z m)
    (hsub : more ⊆ nodes) : Steps T n n' c rank b f (fun a => Spread source o (more ++ F a)) x y z m :=
  h.imp fun _ _ _ hm => hm.sub (by grind)

theorem weaken (h : Steps T n n' c rank true f Q x y z m) : Steps T n n' c rank b f Q x y z m := by
  refine ⟨fun a m' hr => ?_, h.leads, h.agrees, h.ends, h.forgets⟩
  cases b with
  | false => exact (h.reads a m' hr).forget
  | true => exact h.reads a m' hr

theorem before {as bs : Array β} {l : Array β → Parse α} (h : as = bs)
    (hx : Steps T n n' c rank b f Q x y (l as) m) : Steps T n n' c rank b f Q x y (l bs) m := h ▸ hx

theorem pure {a : α} (hm : Reached T c b (Q a) m) :
    Steps T n n' c rank b f Q (Pure.pure a) (Pure.pure a) (Pure.pure (f a)) m :=
  ⟨fun _ _ h => (by cases h; exact hm.past), fun t => .pure (hm.holds t), fun _ => rfl, fun _ h => (by cases h), rfl⟩

theorem pure_of_eq {a a' : α} (hm : Reached T c b (Q a) m) (h : f a = a') :
    Steps T n n' c rank b f Q (Pure.pure a) (Pure.pure a) (Pure.pure a') m := h ▸ pure hm

theorem map_bind {γ : Type} {k : α → γ} {l l' l'' : γ → Parse β} (hx : Steps T n n' c rank b f Q x y z m)
    (hl : ∀ a m', Reached T c b (Q a) m' → Steps T n n' c rank b' g R (l (k a)) (l' (k a)) (l'' (k (f a))) m') :
    Steps T n n' c rank b' g R (k <$> x >>= l) (k <$> y >>= l') (k <$> z >>= l'') m := by
  simp only [map_eq_pure_bind, bind_assoc]
  exact hx.bind hl

theorem throws {e e' : SyntaxFault} (he : e ≠ .exhausted) :
    Steps T n n' c rank b f Q (throw e) (throw e) (throw e') m :=
  ⟨fun _ _ h => (by cases h), fun _ => .throws, fun _ => rfl, fun _ h => (by cases h; exact he rfl), rfl⟩

theorem throws_bind {e e' : SyntaxFault} {k k' l : β → Parse α} (he : e ≠ .exhausted) :
    Steps T n n' c rank b f Q (throw e >>= k) (throw e >>= k') (throw e' >>= l) m :=
  ⟨fun _ _ h => (by cases h), fun _ => .throws_bind, fun _ => rfl, fun _ h => (by cases h; exact he rfl), rfl⟩

/-! ### Calls

A call of the same body may come only after a token has been read. -/

section

variable (hn : Known n) (d : Production α) (hm : Gathered T source o c b nodes m)
  (hd : b = true ∨ Nat.blt d.rank rank = true)
include hn hm hd

theorem call (hin : d.inputs ⊆ nodes) (hready : T → d.Ready m) :
    Steps T n n' c rank (b || d.consumes) d.forget
      (fun a m' => Spread source o (nodes ++ d.outputs a) m' ∧ d.Closes m a m')
      (d.read n) (d.read n') (d.placeless.read n) m := by
  have hweight : m.weight d.rank < c.weight rank := by
    rcases hd with rfl | hd
    · exact hm.past.weight_lt d.rank_lt
    · exact hm.past.weight_lt_of_rank (Nat.le_of_ble_eq_true hd)
  have hclosed := hm.past.closed
  exact ⟨fun a m' h => hm.past.trans (hn.progress α d m hclosed a m' h),
    fun t => hn.places source α d o nodes m hin (hready t) (hm.holds t), fun h => h α d m hclosed hweight,
    fun h => h α d m hclosed hweight, hn.forgetful α d m hclosed⟩

theorem run (hin : d.inputs ⊆ nodes) (hready : T → d.Ready m) :
    Steps T n n' c rank (b || d.consumes) d.forget (fun a => Spread source o (nodes ++ d.outputs a))
      (d.read n) (d.read n') (d.placeless.read n) m :=
  (call hn d hm hd hin hready).imp fun _ _ _ h => h.1

theorem opens (hfresh : d.isFresh = true) (hk : d.skips = true → m.current.kind.isEof = false) :
    Steps T n n' c rank (b || d.consumes) d.forget (fun a => Spread source o (nodes ++ d.outputs a))
      (d.read n) (d.read n') (d.read n) m := by
  have hin : d.inputs ⊆ nodes := by
    rw [d.inputs_of_isFresh hfresh]
    exact List.nil_subset _
  have hrun : Steps T n n' c rank _ _ _ _ _ _ m := run hn d hm hd hin fun _ => d.ready_of_isFresh hfresh hk
  rwa [d.placeless_of_isFresh hfresh] at hrun

end

theorem first (hn : Known n) (d : Production α) (hm : Gathered T source o c false nodes m)
    (hd : Nat.blt d.rank rank = true) (hfresh : (d.isFresh && !d.skips) = true) :
    Steps T n n' c rank d.consumes d.forget (fun a => Spread source o (nodes ++ d.outputs a))
      (d.read n) (d.read n') (d.read n) m := by
  rw [Bool.and_eq_true, Bool.not_eq_true'] at hfresh
  exact opens hn d hm (.inr hd) hfresh.1 fun h => absurd (hfresh.2.symm.trans h) Bool.false_ne_true

theorem later (hn : Known n) (d : Production α) (hm : Gathered T source o c true nodes m)
    (hfresh : (d.isFresh && !d.skips) = true) :
    Steps T n n' c rank true d.forget (fun a => Spread source o (nodes ++ d.outputs a))
      (d.read n) (d.read n') (d.read n) m := by
  rw [Bool.and_eq_true, Bool.not_eq_true'] at hfresh
  exact opens hn d hm (.inl rfl) hfresh.1 fun h => absurd (hfresh.2.symm.trans h) Bool.false_ne_true

theorem goesOn (hn : Known n) (d : Production α) (hm : Gathered T source o c true nodes m)
    (hready : T → d.Ready m) (hin : more ++ d.inputs ⊆ nodes) :
    Steps T n n' c rank b d.forget (fun a => Spread source o (more ++ d.outputs a))
      (d.read n) (d.read n') (d.placeless.read n) m :=
  weaken ((run hn d hm (.inl rfl) (List.append_subset.1 hin).2 hready).sub (List.append_subset.1 hin).1)

/-! ### Steps that call nothing -/

theorem kind_bind {k k' l : TokenKind → Parse α}
    (h : Steps T n n' c rank b f Q (k m.current.kind) (k' m.current.kind) (l m.current.kind) m) :
    Steps T n n' c rank b f Q (kind >>= k) (kind >>= k') (kind >>= l) m :=
  ⟨h.reads, h.leads, h.agrees, h.ends, h.forgets⟩

theorem token_bind {k k' l : Token → Parse α} (h : Steps T n n' c rank b f Q (k m.current) (k' m.current)
      (l ⟨m.current.kind, .nowhere, m.current.newlineBefore⟩) m) :
    Steps T n n' c rank b f Q (token >>= k) (token >>= k') (token >>= l) m :=
  ⟨h.reads, h.leads, h.agrees, h.ends, h.forgets⟩

theorem atMark_bind {p : Punctuator} {k k' l : Bool → Parse α} (h : Steps T n n' c rank b f Q
      (k (m.current.kind.isMark p)) (k' (m.current.kind.isMark p)) (l (m.current.kind.isMark p)) m) :
    Steps T n n' c rank b f Q (atMark p >>= k) (atMark p >>= k') (atMark p >>= l) m :=
  ⟨h.reads, h.leads, h.agrees, h.ends, h.forgets⟩

theorem atWord_bind {w : ReservedWord} {k k' l : Bool → Parse α} (h : Steps T n n' c rank b f Q
      (k (m.current.kind.isWord w)) (k' (m.current.kind.isWord w)) (l (m.current.kind.isWord w)) m) :
    Steps T n n' c rank b f Q (atWord w >>= k) (atWord w >>= k') (atWord w >>= l) m :=
  ⟨h.reads, h.leads, h.agrees, h.ends, h.forgets⟩

theorem get_bind {k k' l : Cursor → Parse α} (h : Steps T n n' c rank b f Q (k m) (k' m) (l m.placeless) m) :
    Steps T n n' c rank b f Q (get >>= k) (get >>= k') (get >>= l) m :=
  ⟨h.reads, h.leads, h.agrees, h.ends, h.forgets⟩

theorem advance_bind {k k' l : Unit → Parse α} (h : Steps T n n' c rank b f Q (k ()) (k' ()) (l ()) m.next) :
    Steps T n n' c rank b f Q (advance >>= k) (advance >>= k') (advance >>= l) m :=
  ⟨h.reads, h.leads, h.agrees, h.ends, (congrArg (fun c => (l () c).toOption) m.next_placeless).trans h.forgets⟩

theorem next {P : Cursor → Prop} (h : Reached T c b P m.next) :
    Steps T n n' c rank b id (fun _ => P) advance advance advance m :=
  ⟨fun _ _ hr => (by cases hr; exact h.past), fun t _ _ hr => (by cases hr; exact h.holds t), fun _ => rfl,
    fun _ hr => (by cases hr), congrArg (fun c => some ((), c)) m.next_placeless⟩

section

variable (hm : Gathered T source o c b nodes m)
include hm

theorem take (hk : m.current.kind.isEof = false) : Steps T n n' c rank true id
    (fun _ => Spread source o nodes) advance advance advance m :=
  next ⟨hm.past.next_of_not_eof hk, (hm.skip fun _ => hk).holds⟩

theorem expectMark {p : Punctuator} : Steps T n n' c rank true id
    (fun _ => Spread source o nodes) (expectMark p) (expectMark p) (expectMark p) m := by
  refine .atMark_bind ?_
  split
  case isTrue h => exact .take hm (TokenKind.not_eof_of_isMark h)
  case isFalse => exact .token_bind (.throws fun h => by cases h)

theorem expectWord {w : ReservedWord} : Steps T n n' c rank true id
    (fun _ => Spread source o nodes) (expectWord w) (expectWord w) (expectWord w) m := by
  refine .atWord_bind ?_
  split
  case isTrue h => exact .take hm (TokenKind.not_eof_of_isWord h)
  case isFalse => exact .token_bind (.throws fun h => by cases h)

theorem identifier : Steps T n n' c rank true Identifier.placeless
    (fun id => Spread source o (nodes ++ [Node.identifier id])) identifier identifier identifier m := by
  refine .token_bind ?_
  dsimp only
  split
  case h_1 h => exact .bind (.take (hm.identifier (by rw [h]; rfl)) (h ▸ rfl)) fun _ _ hm => .pure hm
  case h_2 => exact .throws fun h => by cases h

theorem propertyName : Steps T n n' c rank true Identifier.placeless
    (fun id => Spread source o (nodes ++ [Node.identifier id])) propertyName propertyName propertyName m := by
  refine .token_bind ?_
  dsimp only
  split
  case h_1 h => exact .bind (.take (hm.identifier (by rw [h]; rfl)) (h ▸ rfl)) fun _ _ hm => .pure hm
  case h_2 => exact .identifier hm

theorem semicolon : Steps T n n' c rank b id (fun _ => Spread source o nodes)
    semicolon semicolon semicolon m := by
  refine .token_bind ?_
  split
  case isTrue h => exact .weaken (.take hm (TokenKind.not_eof_of_isMark h))
  case isFalse =>
    split
    · exact .pure hm
    · exact .throws fun h => by cases h

theorem jumpLabel : Steps T n n' c rank b (Option.map Identifier.placeless)
    (fun label => Spread source o (nodes ++ label.toList.map .identifier)) jumpLabel jumpLabel jumpLabel m := by
  refine .token_bind ?_
  dsimp only
  split
  · exact .weaken (.bind (.identifier hm) fun _ _ hm => .bind (.semicolon hm) fun _ _ hm => .pure hm)
  · exact .bind (.semicolon hm) fun _ _ hm => .pure (hm.sub (by grind))

theorem close {start : Span} {kind : StmtKind} {Label : String → Prop} (hk : more ++ kind.children ⊆ nodes) :
    Steps T n n' c rank b Stmt.placeless
      (fun s m' => Spread source o (more ++ s.kind.children) m' ∧ Spans start Label s m')
      (close start kind) (close start kind) (close .nowhere kind.placeless) m :=
  .get_bind (.pure (hm.imp fun _ hm => ⟨hm.sub hk, rfl, fun _ _ hlabels => by cases hlabels⟩))

theorem build {op : Operator} {operands : List Expr} (h : operands.map Node.expr ⊆ nodes) :
    Steps T n n' c rank b Expr.placeless (fun e => Spread source o (nodes ++ [Node.expr e]))
      (build op operands) (build op operands) (build op (operands.map Expr.placeless)) m := by
  have hforgets := op.build_placeless operands
  have hends := op.build_ne_exhausted operands
  have hbuild : ∀ (es : List Expr) (m : Cursor), Parse.build op es m = (op.build es >>= fun e => .ok (e, m)) :=
    fun _ _ => rfl
  have hok : ∀ {e m'}, Parse.build op operands m = .ok (e, m') →
      (∀ x ∈ e.children, ∃ operand ∈ operands, x.Below (.expr operand)) ∧ m' = m :=
    fun he => (Leads.build _ _ he).imp_left Operator.build_children
  refine ⟨fun e m' he => (hok he).2 ▸ hm.past, fun t e m' he => ?_, fun _ => rfl, fun _ h => ?_, ?_⟩
  · obtain ⟨hparts, rfl⟩ := hok he
    have hplaced : Spread source o (nodes ++ e.children) m' := (hm.holds t).add fun x hx => by
      obtain ⟨operand, hmem, hbelow⟩ := hparts x hx
      exact ((hm.holds t).placed _ (h (List.mem_map_of_mem hmem))).below hbelow
    exact hplaced.expr (List.Subset.refl _)
  · rw [hbuild] at h
    cases hr : op.build operands <;> rw [hr] at h hends <;> cases h
    exact hends rfl
  · rw [hbuild, hbuild]
    cases hx : op.build operands <;> cases hy : op.build (operands.map Expr.placeless) <;> rw [hx, hy] at hforgets <;>
      cases hforgets <;> rfl

end

end Steps

abbrev Runs (T : Prop) (source : String) (o : Cursor) (nodes : List Node) (n n' : Nat) (c : Cursor) (d : Production α)
    (x y z : Parse α) (m : Cursor) : Prop :=
  Steps T n n' c d.rank d.consumes d.forget (fun a => Spread source o (nodes ++ d.outputs a)) x y z m

abbrev RunsBody (T : Prop) (source : String) (o : Cursor) (nodes : List Node) (n n' : Nat) (c : Cursor)
    (d : Production α) : Prop :=
  Runs T source o nodes n n' c d (d.read (n + 1)) (d.read (n' + 1)) (d.placeless.read (n + 1)) c

section

variable {T : Prop} {source : String} {o c : Cursor} {nodes : List Node} {n n' : Nat} (hn : Known n)
  (hc : Gathered T source o c false nodes c)
include hn hc

/-! ## Lists and functions -/

theorem steps_block : RunsBody T source o nodes n n' c .block := by
  exact .bind (.expectMark hc) fun _ _ hm => .bind (.later hn (.statements .block #[]) hm rfl) fun _ _ hm =>
    .bind (.expectMark hm) fun _ _ hm => .pure hm

theorem steps_parenthesized : RunsBody T source o nodes n n' c .parenthesized := by
  exact .bind (.expectMark hc) fun _ _ hm => .bind (.later hn (.expression true) hm rfl) fun _ _ hm =>
    .bind (.expectMark hm) fun _ _ hm => .pure hm

theorem steps_declarators (allowIn : Bool) (before : Array Declarator)
    (hin : before.toList.flatMap Declarator.children ⊆ nodes) :
    RunsBody T source o nodes n n' c (.declarators allowIn before) := by
  refine .bind (.identifier hc) fun id _ hm => .atMark_bind ?_
  extract_lets jp jp' jp''
  have hjp : ∀ init m, Gathered T source o c true (nodes ++ [Node.identifier id] ++ init.toList.map .expr) m →
      Runs T source o nodes n n' c (.declarators allowIn before) (jp init) (jp' init) (jp'' (optionPlaceless init)) m := by
    intro init m hm
    have hpush : (before.push ⟨id, init⟩).map Declarator.placeless =
        (before.map Declarator.placeless).push ⟨id.placeless, optionPlaceless init⟩ := Array.map_push
    refine .atMark_bind ?_
    split
    case isTrue h =>
      exact .bind (.take hm (TokenKind.not_eof_of_isMark h)) fun _ _ hm => .before hpush
        (.goesOn hn (.declarators allowIn (before.push ⟨id, init⟩)) hm (fun _ => trivial) (by grind))
    case isFalse =>
      exact .pure_of_eq (hm.sub (by grind))
        ((declaratorsPlaceless_eq _).trans (by rw [← Array.toList_map, hpush]))
  split
  case isTrue h =>
    exact .bind (.take hm (TokenKind.not_eof_of_isMark h)) fun _ _ hm =>
      .bind (.later hn (.climb allowIn Precedence.assignment) hm rfl) fun e _ hm => hjp (some e) _ hm
  case isFalse => exact hjp none _ (hm.sub (by grind))

theorem steps_parameters (before : Array Identifier) (hin : before.toList.map Node.identifier ⊆ nodes) :
    RunsBody T source o nodes n n' c (.parameters before) := by
  refine .bind (.identifier hc) fun id _ hm => .atMark_bind ?_
  split
  case isTrue h =>
    exact .bind (.take hm (TokenKind.not_eof_of_isMark h)) fun _ _ hm => .before Array.map_push
      (.goesOn hn (.parameters (before.push id)) hm (fun _ => trivial) (by grind))
  case isFalse =>
    exact .pure_of_eq (hm.sub (by grind)) (Array.toList_map.symm.trans (congrArg _ Array.map_push))

theorem steps_function (requireName : Bool) (hk : T → c.current.kind.isEof = false) :
    RunsBody T source o nodes n n' c (.function requireName) := by
  refine .token_bind (.bind (.next (hc.skip hk)) fun _ _ hm => .kind_bind ?_)
  extract_lets jp jp' jp''
  have hjp : ∀ id b m, Gathered T source o c b (nodes ++ id.toList.map .identifier) m →
      Runs T source o nodes n n' c (.function requireName) (jp id) (jp' id) (jp'' (id.map Identifier.placeless)) m := by
    intro id b m hm
    refine .bind (.expectMark hm) fun _ _ hm => .atMark_bind ?_
    extract_lets jp jp' jp''
    have hjp : ∀ params m, Gathered T source o c true (nodes ++ id.toList.map .identifier ++ params.map .identifier) m →
        Runs T source o nodes n n' c (.function requireName) (jp params) (jp' params)
          (jp'' (params.map Identifier.placeless)) m := fun _ _ hm =>
      .bind (.expectMark hm) fun _ _ hm => .bind (.expectMark hm) fun _ _ hm =>
        .bind (.later hn (.statements .block #[]) hm rfl) fun _ _ hm => .bind (.expectMark hm) fun _ _ hm =>
          .get_bind (.pure (hm.function (by grind)))
    split
    · exact hjp [] _ (hm.sub (by grind))
    · exact .bind (.later hn (.parameters #[]) hm rfl) hjp
  split
  · exact .map_bind (.identifier hm) fun id m hm => hjp (some id) _ m hm
  · split
    · exact .map_bind (.identifier hm) fun id m hm => hjp (some id) _ m hm
    · exact hjp none _ _ (hm.sub (by grind))

/-! ## Branches, loops and handlers -/

theorem steps_branch (hk : T → c.current.kind.isEof = false) : RunsBody T source o nodes n n' c .branch := by
  refine .bind (.next (hc.skip hk)) fun _ _ hm => .bind (.first hn .parenthesized hm rfl rfl) fun _ _ hm =>
    .bind (.later hn .statement hm rfl) fun _ _ hm => .atWord_bind ?_
  split
  case isTrue h =>
    exact .bind (.take hm (TokenKind.not_eof_of_isWord h)) fun _ _ hm => .bind (.later hn .statement hm rfl)
      fun _ _ hm => .pure (hm.sub (by grind))
  case isFalse => exact .pure (hm.sub (by grind))

theorem steps_switch (hk : T → c.current.kind.isEof = false) : RunsBody T source o nodes n n' c .switch := by
  exact .bind (.next (hc.skip hk)) fun _ _ hm => .bind (.first hn .parenthesized hm rfl rfl) fun _ _ hm =>
    .bind (.expectMark hm) fun _ _ hm => .bind (.later hn (.clauses #[]) hm rfl) fun _ _ hm =>
      .bind (.expectMark hm) fun _ _ hm => .pure (hm.sub (by grind))

theorem steps_clauses (before : Array SwitchCase) (hin : before.toList.flatMap SwitchCase.children ⊆ nodes) :
    RunsBody T source o nodes n n' c (.clauses before) := by
  have hany : ((before.map SwitchCase.placeless).any fun c => c.test.isNone) = before.any fun c => c.test.isNone := by
    rw [Array.any_map]
    congr 1
    funext c
    obtain ⟨_ | test, body⟩ := c <;> rfl
  change Runs T source o nodes n n' c _ (clauses (n + 1) before) (clauses (n' + 1) before)
    (clauses (n + 1) (before.map SwitchCase.placeless)) c
  rw [clauses, clauses, clauses, hany]
  refine .kind_bind ?_
  split
  · exact .pure_of_eq (hc.sub (by grind)) ((casesPlaceless_eq _).trans Array.toList_map.symm)
  · extract_lets jp jpDefault jp' jpDefault' jp'' jpDefault''
    have hjp : ∀ test m, Gathered T source o c true (nodes ++ test.toList.map .expr) m →
        Runs T source o nodes n n' c (.clauses before) (jp test) (jp' test) (jp'' (optionPlaceless test)) m :=
      fun test _ hm => .bind (.later hn (.statements .clause #[]) hm rfl) fun body _ hm => .before Array.map_push
        (.goesOn hn (.clauses (before.push ⟨test, body⟩)) hm (fun _ => trivial) (by grind))
    split
    case isTrue h =>
      exact .bind (.take hc (TokenKind.not_eof_of_isWord h)) fun _ _ hm =>
        .bind (.later hn (.expression true) hm rfl) fun e _ hm => .bind (.expectMark hm) fun _ m hm => hjp (some e) m hm
    case isFalse =>
      split
      case isTrue h =>
        refine .bind (.take hc (TokenKind.not_eof_of_isWord h)) fun _ _ hm => .bind (.expectMark hm) fun _ m hm => ?_
        split
        · exact .throws_bind fun h => by cases h
        · exact hjp none m (hm.sub (by grind))
      case isFalse => exact .throws_bind fun h => by cases h

theorem steps_forLoop (hk : T → c.current.kind.isEof = false) : RunsBody T source o nodes n n' c .forLoop := by
  refine .bind (.next (hc.skip hk)) fun _ _ hm => .bind (.expectMark hm) fun _ _ hm => .kind_bind ?_
  split
  · exact .later hn (.countedLoop none) hm rfl
  · exact .throws fun h => by cases h
  · exact .throws fun h => by cases h
  case h_4 h =>
    refine .bind (.take hm (h ▸ rfl)) fun _ _ hm => .bind (.later hn (.declarators false #[]) hm rfl) fun ds m hm =>
      .atWord_bind ?_
    have hcounted : Runs T source o nodes n n' c .forLoop _ _ _ m :=
      .goesOn hn (.countedLoop (some (.declare ds))) hm (fun _ => trivial) (by grind)
    cases m.current.kind.isWord .inWord with
    | false => rcases ds with _ | ⟨d, _ | ⟨d', ds⟩⟩ <;> exact hcounted
    | true =>
      rcases ds with _ | ⟨d, _ | ⟨d', ds⟩⟩
      · exact hcounted
      · exact .goesOn hn (.keyLoop (.declare d)) hm (fun _ => trivial) (by grind)
      · exact hcounted
  case h_5 =>
    refine .bind (.later hn (.expression false) hm rfl) fun e _ hm => .atWord_bind ?_
    rw [show (Production.expression false).forget e = e.placeless from rfl, Expr.isReference_placeless]
    split
    · split
      · exact .goesOn hn (.keyLoop (.assign e)) hm (fun _ => trivial) (by grind)
      · exact .throws fun h => by cases h
    · exact .goesOn hn (.countedLoop (some (.evaluate e))) hm (fun _ => trivial) (by grind)

theorem steps_countedLoop (init : Option LoopInit) (hin : init.toList.flatMap LoopInit.children ⊆ nodes) :
    RunsBody T source o nodes n n' c (.countedLoop init) := by
  refine .bind (.expectMark hc) fun _ _ hm => .atMark_bind ?_
  extract_lets jp jp' jp''
  have hjp : ∀ test m, Gathered T source o c true (nodes ++ test.toList.map .expr) m →
      Runs T source o nodes n n' c (.countedLoop init) (jp test) (jp' test) (jp'' (optionPlaceless test)) m := by
    intro test m hm
    refine .bind (.expectMark hm) fun _ _ hm => .atMark_bind ?_
    extract_lets jp jp' jp''
    have hjp : ∀ update m, Gathered T source o c true (nodes ++ test.toList.map .expr ++ update.toList.map .expr) m →
        Runs T source o nodes n n' c (.countedLoop init) (jp update) (jp' update) (jp'' (optionPlaceless update)) m :=
      fun _ _ hm => .bind (.expectMark hm) fun _ _ hm => .bind (.later hn .statement hm rfl) fun _ _ hm =>
        .pure (hm.sub (by grind))
    split
    · exact hjp none _ (hm.sub (by grind))
    · exact .map_bind (.later hn (.expression true) hm rfl) fun e _ hm => hjp (some e) _ hm
  split
  · exact hjp none _ (hm.sub (by grind))
  · exact .map_bind (.later hn (.expression true) hm rfl) fun e _ hm => hjp (some e) _ hm

theorem steps_keyLoop (target : KeyTarget) (hin : target.children ⊆ nodes) :
    RunsBody T source o nodes n n' c (.keyLoop target) := by
  exact .bind (.expectWord hc) fun _ _ hm => .bind (.later hn (.expression true) hm rfl) fun _ _ hm =>
    .bind (.expectMark hm) fun _ _ hm => .bind (.later hn .statement hm rfl) fun _ _ hm => .pure (hm.sub (by grind))

theorem steps_attempt (hk : T → c.current.kind.isEof = false) : RunsBody T source o nodes n n' c .attempt := by
  refine .bind (.next (hc.skip hk)) fun _ _ hm => .bind (.first hn .block hm rfl rfl) fun body _ hm => .atWord_bind ?_
  extract_lets jp jp' jp''
  have hjp : ∀ handler m,
      Gathered T source o c true (nodes ++ [Node.body body] ++ handler.toList.flatMap CatchClause.children) m →
      Runs T source o nodes n n' c .attempt (jp handler) (jp' handler) (jp'' (handlerPlaceless handler)) m := by
    intro handler m hm
    refine .atWord_bind ?_
    extract_lets jp jp'
    have hjp : ∀ finalizer m, Gathered T source o c true
          (nodes ++ [Node.body body] ++ handler.toList.flatMap CatchClause.children ++ finalizer.toList.map .body) m →
        Runs T source o nodes n n' c .attempt (jp finalizer) (jp finalizer) (jp' (finalizerPlaceless finalizer)) m := by
      intro finalizer m hm
      have hkind : Gathered T source o c true (nodes ++ (StmtKind.attempt body handler finalizer).children) m :=
        hm.sub (by grind)
      rcases handler with _ | ⟨_, _⟩ <;> cases finalizer
      · exact .throws_bind fun h => by cases h
      all_goals exact .pure hkind
    split
    case isTrue h =>
      exact .bind (.take hm (TokenKind.not_eof_of_isWord h)) fun _ _ hm => .map_bind (.later hn .block hm rfl)
        fun b m hm => hjp (some b) m hm
    case isFalse => exact hjp none _ (hm.sub (by grind))
  split
  case isTrue h =>
    exact .bind (.take hm (TokenKind.not_eof_of_isWord h)) fun _ _ hm => .bind (.expectMark hm) fun _ _ hm =>
      .bind (.identifier hm) fun param _ hm => .bind (.expectMark hm) fun _ _ hm => .bind (.later hn .block hm rfl)
        fun b m hm => hjp (some ⟨param, b⟩) m (hm.sub (by grind))
  case isFalse => exact hjp none _ (hm.sub (by grind))

/-! ## Expressions -/

theorem steps_expression (allowIn : Bool) : RunsBody T source o nodes n n' c (.expression allowIn) := by
  refine .bind (.first hn (.climb allowIn Precedence.assignment) hc rfl rfl) fun e _ hm => .atMark_bind ?_
  split
  · exact .before (List.map_toArray (l := [e]))
      (.goesOn hn (.commaList allowIn #[e]) hm (fun _ => trivial) (by grind))
  · exact .pure hm

theorem steps_commaList (allowIn : Bool) (before : Array Expr) (hin : before.toList.map Node.expr ⊆ nodes) :
    RunsBody T source o nodes n n' c (.commaList allowIn before) := by
  refine .atMark_bind ?_
  split
  case isTrue h =>
    exact .bind (.take hc (TokenKind.not_eof_of_isMark h)) fun _ _ hm =>
      .bind (.later hn (.climb allowIn Precedence.comma.succ) hm rfl) fun e _ hm => .before Array.map_push
        (.goesOn hn (.commaList allowIn (before.push e)) hm (fun _ => trivial) (by grind))
  case isFalse =>
    exact .pure_of_eq (hc.expr (by grind))
      (congrArg Expr.sequence ((itemsPlaceless_eq _).trans Array.toList_map.symm))

theorem steps_climb (allowIn : Bool) (least : Nat) : RunsBody T source o nodes n n' c (.climb allowIn least) := by
  exact .bind (.first hn .unary hc rfl rfl) fun left _ hm =>
    .goesOn hn (.climbFrom allowIn least left) hm (fun _ => trivial) (by grind)

theorem steps_climbFrom (allowIn : Bool) (least : Nat) (left : Expr) (hin : [.expr left] ⊆ nodes) :
    RunsBody T source o nodes n n' c (.climbFrom allowIn least left) := by
  refine .kind_bind ?_
  split
  · exact .pure (hc.sub (by grind))
  case h_2 op h =>
    split
    · exact .pure (hc.sub (by grind))
    · refine .bind (.take hc (Operator.not_eof_of_between? h)) fun _ _ hm => ?_
      split
      · exact .bind (.later hn (.climb true op.secondary) hm rfl) fun _ _ hm => .bind (.expectMark hm) fun _ _ hm =>
          .bind (.later hn (.climb allowIn op.tertiary) hm rfl) fun _ _ hm => .bind (.build hm (by grind)) fun e _ hm =>
            .goesOn hn (.climbFrom allowIn least e) hm (fun _ => trivial) (by grind)
      · exact .bind (.later hn (.climb allowIn op.secondary) hm rfl) fun _ _ hm =>
          .bind (.build hm (by grind)) fun e _ hm =>
            .goesOn hn (.climbFrom allowIn least e) hm (fun _ => trivial) (by grind)

theorem steps_unary : RunsBody T source o nodes n n' c .unary := by
  refine .kind_bind ?_
  split
  case h_1 h =>
    exact .bind (.take hc (Operator.not_eof_of_before? h)) fun _ _ hm => .bind (.later hn .unary hm rfl) fun _ _ hm =>
      .sub (.build hm (by grind)) (by grind)
  case h_2 => exact .first hn .updated hc rfl rfl

theorem steps_updated : RunsBody T source o nodes n n' c .updated := by
  refine .bind (.first hn .leftHandSide hc rfl rfl) fun _ m hm => .token_bind ?_
  dsimp only
  split
  case h_1 op h _ =>
    have hk : m.current.kind.isEof = false := by
      cases hkind : m.current.kind with
      | eof => simp [hkind, Operator.after?] at h
      | _ => rfl
    exact .bind (.take hm hk) fun _ _ hm => .sub (.build hm (by grind)) (by grind)
  case h_2 => exact .pure hm

theorem steps_leftHandSide : RunsBody T source o nodes n n' c .leftHandSide := by
  refine .atWord_bind ?_
  split
  case isTrue h =>
    refine .bind (.opens hn .newOperand hc (.inr rfl) rfl fun _ => TokenKind.not_eof_of_isWord h) fun e _ hm => ?_
    have hnew : Gathered T source o c true (nodes ++ [Node.expr (.new e)]) _ := hm.expr (by grind)
    have hprecedence : (Pending.mk Operator.new [e.placeless] false).effectivePrecedence =
        (Pending.mk Operator.new [e] false).effectivePrecedence := by cases e <;> rfl
    simp only [show Production.newOperand.forget e = e.placeless from rfl, hprecedence]
    split
    · exact .pure hnew
    · exact .goesOn hn (.suffixes (.new e)) hnew (fun _ => trivial) (by grind)
  case isFalse =>
    exact .bind (.first hn .primary hc rfl rfl) fun e _ hm =>
      .goesOn hn (.suffixes e) hm (fun _ => trivial) (by grind)

theorem steps_newOperand (hk : T → c.current.kind.isEof = false) : RunsBody T source o nodes n n' c .newOperand := by
  refine .advance_bind (.atWord_bind ?_)
  extract_lets jp jp'
  have hjp : ∀ base m, Gathered T source o c true (nodes ++ [Node.expr base]) m →
      Runs T source o nodes n n' c .newOperand (jp base) (jp' base) (jp base.placeless) m := by
    intro base m hm
    refine .bind (.run hn (.accesses base) hm (.inl rfl) (by grind) fun _ => trivial) fun target _ hm => .atMark_bind ?_
    split
    · exact .goesOn hn (.call target) hm (fun _ => trivial) (by grind)
    · exact .pure (hm.sub (by grind))
  split
  case isTrue h =>
    have hm : Gathered T source o c true nodes c.next := by
      refine ⟨hc.past.next_cases.resolve_right fun hend => ?_, (hc.skip hk).holds⟩
      obtain ⟨heof, hsame⟩ := hend
      rw [hsame, TokenKind.isWord_iff] at h
      rw [h] at heof
      cases heof
    exact .map_bind (.opens hn .newOperand hm (.inl rfl) rfl fun _ => TokenKind.not_eof_of_isWord h) fun e m hm =>
      hjp (.new e) m (hm.expr (by grind))
  case isFalse => exact .bind (.first hn .primary (hc.skip hk) rfl rfl) hjp

theorem steps_suffixes (base : Expr) (hin : [.expr base] ⊆ nodes) :
    RunsBody T source o nodes n n' c (.suffixes base) := by
  have haccess : Runs T source o nodes n n' c (.suffixes base) (access n base >>= suffixes n)
      (access n' base >>= suffixes n') (access n base.placeless >>= suffixes n) c :=
    .bind (.run hn (.access base) hc (.inr rfl) hin fun _ => trivial) fun e _ hm =>
      .goesOn hn (.suffixes e) hm (fun _ => trivial) (by grind)
  refine .kind_bind ?_
  split
  · exact haccess
  · exact haccess
  · exact .bind (.run hn (.call base) hc (.inr rfl) hin fun _ => trivial) fun e _ hm =>
      .goesOn hn (.suffixes e) hm (fun _ => trivial) (by grind)
  · exact .pure (hc.sub (by grind))

theorem steps_accesses (base : Expr) (hin : [.expr base] ⊆ nodes) :
    RunsBody T source o nodes n n' c (.accesses base) := by
  have haccess : Runs T source o nodes n n' c (.accesses base) (access n base >>= accesses n)
      (access n' base >>= accesses n') (access n base.placeless >>= accesses n) c :=
    .bind (.run hn (.access base) hc (.inr rfl) hin fun _ => trivial) fun e _ hm =>
      .goesOn hn (.accesses e) hm (fun _ => trivial) (by grind)
  refine .kind_bind ?_
  split
  · exact haccess
  · exact haccess
  · exact .pure (hc.sub (by grind))

theorem steps_access (base : Expr) (hin : [.expr base] ⊆ nodes) : RunsBody T source o nodes n n' c (.access base) := by
  refine .atMark_bind ?_
  split
  case isTrue h =>
    refine .bind (.take hc (TokenKind.not_eof_of_isMark h)) fun _ _ hm => .bind (.propertyName hm) fun property m hm => ?_
    have hname : Gathered T source o c true (nodes ++ [Node.expr (.identifier property)]) m := hm.expr (by grind)
    exact .sub (.build hname (by grind)) (by grind)
  case isFalse =>
    exact .bind (.expectMark hc) fun _ _ hm => .bind (.later hn (.expression true) hm rfl) fun _ _ hm =>
      .bind (.expectMark hm) fun _ _ hm => .sub (.build hm (by grind)) (by grind)

theorem steps_call (callee : Expr) (hin : [.expr callee] ⊆ nodes) : RunsBody T source o nodes n n' c (.call callee) := by
  refine .bind (.expectMark hc) fun _ _ hm => .atMark_bind ?_
  split
  case isTrue h => exact .bind (.take hm (TokenKind.not_eof_of_isMark h)) fun _ _ hm => .build hm (by grind)
  case isFalse =>
    exact .bind (.later hn (.expression true) hm rfl) fun _ _ hm => .bind (.expectMark hm) fun _ _ hm =>
      .sub (.build hm (by grind)) (by grind)

theorem steps_primary : RunsBody T source o nodes n n' c .primary := by
  change Runs T source o nodes n n' c _ (primary (n + 1)) (primary (n' + 1)) (primary (n + 1)) c
  rw [primary, primary]
  refine .token_bind ?_
  dsimp only
  split
  case h_6 name h =>
    exact .bind (.take (hc.identifier (by rw [h]; rfl)) (h ▸ rfl)) fun _ _ hm => .pure (hm.expr (by grind))
  case h_8 =>
    exact .bind (.first hn .parenthesized hc rfl rfl) fun _ _ hm => .sub (.build hm (by grind)) (by grind)
  case h_9 h =>
    exact .bind (.take hc (h ▸ rfl)) fun _ _ hm => .bind (.later hn (.elements #[]) hm rfl) fun _ _ hm =>
      .bind (.expectMark hm) fun _ _ hm => .pure (hm.expr (by grind))
  case h_10 h =>
    exact .bind (.take hc (h ▸ rfl)) fun _ _ hm => .bind (.later hn (.properties #[]) hm rfl) fun _ _ hm =>
      .bind (.expectMark hm) fun _ _ hm => .pure (hm.expr (by grind))
  case h_11 h =>
    exact .bind (.opens hn (.function false) hc (.inr rfl) rfl fun _ => h ▸ rfl) fun _ _ hm => .pure (hm.expr (by grind))
  case h_12 | h_13 => exact .throws fun h => by cases h
  all_goals
    rename_i h
    exact .bind (.take hc (h ▸ rfl)) fun _ _ hm => .pure (hm.expr (by grind))

theorem steps_elements (before : Array (Option Expr))
    (hin : (before.toList.flatMap fun e => e.toList.map Node.expr) ⊆ nodes) :
    RunsBody T source o nodes n n' c (.elements before) := by
  have hpush : ∀ e, (before.push e).map optionPlaceless = (before.map optionPlaceless).push (optionPlaceless e) :=
    fun _ => Array.map_push
  refine .kind_bind ?_
  split
  · exact .pure_of_eq (hc.sub (by grind)) ((elementsPlaceless_eq _).trans Array.toList_map.symm)
  · split
    case isTrue h =>
      exact .bind (.take hc (TokenKind.not_eof_of_isMark h)) fun _ _ hm => .before (hpush none)
        (.goesOn hn (.elements (before.push none)) hm (fun _ => trivial) (by grind))
    case isFalse =>
      refine .bind (.first hn (.climb true Precedence.assignment) hc rfl rfl) fun e _ hm => .atMark_bind ?_
      extract_lets jp jp' jp''
      have hjp : ∀ u m, Gathered T source o c true (nodes ++ [Node.expr e]) m →
          Runs T source o nodes n n' c (.elements before) (jp u) (jp' u) (jp'' u) m := fun _ _ hm =>
        .before (hpush (some e))
          (.goesOn hn (.elements (before.push (some e))) hm (fun _ => trivial) (by grind))
      split
      · exact hjp () _ hm
      · exact .bind (.expectMark hm) hjp

theorem steps_properties (before : Array (String × Expr)) (hin : (before.toList.map fun p => Node.expr p.2) ⊆ nodes) :
    RunsBody T source o nodes n n' c (.properties before) := by
  refine .kind_bind ?_
  split
  · exact .pure_of_eq (hc.sub (by grind)) ((propertiesPlaceless_eq _).trans Array.toList_map.symm)
  · extract_lets jp jp' jp''
    have hjp : ∀ key m, Gathered T source o c true nodes m →
        Runs T source o nodes n n' c (.properties before) (jp key) (jp' key) (jp'' key) m := by
      intro key m hm
      refine .bind (.expectMark hm) fun _ _ hm => .bind (.later hn (.climb true Precedence.assignment) hm rfl) fun e _ hm =>
        .atMark_bind ?_
      extract_lets jp jp' jp''
      have hjp : ∀ u m, Gathered T source o c true (nodes ++ [Node.expr e]) m →
          Runs T source o nodes n n' c (.properties before) (jp u) (jp' u) (jp'' u) m := fun _ _ hm =>
        .before Array.map_push
          (.goesOn hn (.properties (before.push (key, e))) hm (fun _ => trivial) (by grind))
      split
      · exact hjp () _ hm
      · exact .bind (.expectMark hm) hjp
    split
    case h_1 h => exact .bind (.take hc (h ▸ rfl)) fun _ m hm => hjp _ m hm
    case h_2 h => exact .bind (.take hc (h ▸ rfl)) fun _ m hm => hjp _ m hm
    case h_3 => exact .map_bind (.propertyName hc) fun id m hm => hjp id.name m (hm.sub (by grind))

end

/-! ## Statements -/

section

variable {T : Prop} {source : String} {o c m : Cursor} {nodes : List Node} {n n' : Nat} {s : Stmt}

theorem span_of_read {read : List Token} (hc : c.StandsIn source) (hpast : c.Past true m) (hr : c.Reads read m)
    (hspan : s.span = c.current.span.cover m.last) : read ≠ [] ∧ s.span = ⟨c.current.span.start, m.last.stop⟩ := by
  have hne : read ≠ [] := hr.ne_nil hpast.remaining
  obtain ⟨hstart, hstop⟩ := hc.first_le_last hr hne
  refine ⟨hne, ?_⟩
  rw [hspan, Span.cover, Nat.min_eq_left hstart, Nat.max_eq_right hstop]

theorem spread_stmt (hc : Spread source o nodes c) (hpast : c.Past true m) (hs : statement n c = .ok (s, m))
    (hparts : Spread source c s.kind.children m) (hspans : Production.statement.Closes c s m) :
    Spread source o (nodes ++ [Node.stmt s]) m := by
  obtain ⟨read, hr⟩ := hparts.reads
  obtain ⟨hne, hspan⟩ := span_of_read hc.standsIn hpast hr hspans.span
  obtain ⟨rest, hhead⟩ := hr.head hne
  obtain ⟨t, -, hlast, hstop⟩ := hr.last_mem hne
  have hread : s.ReadFrom source read := by
    refine ⟨⟨n, c, m, hc.standsIn, hr, hs⟩, ?_, ?_, fun name rest hlabels => ?_⟩
    · rw [hhead, hspan]
      rfl
    · rw [hlast, hspan, hstop]
      rfl
    · rw [hhead, List.head?_cons, Option.map_some, hspans.label name rest hlabels]
  have hchildren : ∀ x ∈ s.kind.children, x.Placed source s.span := by
    rw [hspan]
    exact hparts.placed
  have hself : s.span.Inside s.span := ⟨Nat.le_refl _, Nat.le_refl _⟩
  have hinside : ∀ t, (Node.stmt t).Below (.stmt s) → t.span.Inside s.span := by
    intro t ht
    rcases Node.below_iff.1 ht with h | ⟨x, hx, ht⟩
    · cases h
      exact hself
    · exact (hchildren x hx).inside t ht
  have hplaced : (Node.stmt s).Placed source s.span :=
    Node.placed_of_children ⟨⟨read, hread⟩, hinside⟩ (fun t ht => by cases ht; exact hself) hchildren
  refine hc.trans ⟨hc.standsIn, ⟨read, hr⟩, fun x hx => ?_⟩
  cases List.mem_singleton.1 hx
  exact hspan ▸ hplaced

variable (hn : Known n)
include hn

theorem statement_span (hc : c.StandsIn source) (hs : statement n c = .ok (s, m)) :
    s.span = ⟨c.current.span.start, m.last.stop⟩ := by
  obtain ⟨hspread, hspans⟩ := hn.places source _ .statement c [] c (List.nil_subset _) trivial (.start hc) s m hs
  obtain ⟨read, hr⟩ := hspread.reads
  exact (span_of_read hc (hn.progress _ .statement c hc.closed s m hs) hr hspans.span).2

theorem steps_statements (hc : Gathered T source o c false nodes c) (stop : ListEnd) (before : Array Stmt)
    (hin : before.toList.map Node.stmt ⊆ nodes)
    (hordered : T → before.toList.Pairwise fun s t => s.span.stop ≤ t.span.start) :
    RunsBody T source o nodes n n' c (.statements stop before) := by
  refine .kind_bind ?_
  split
  · exact .pure_of_eq (hc.imp fun t hc => hc.body (by grind) (hordered t))
      ((bodyPlaceless_eq _).trans Array.toList_map.symm)
  · refine .bind (.remember (.first hn .statement hc rfl rfl)) fun s m hm => .before Array.map_push
      (.goesOn hn (.statements stop (before.push s)) (hm.imp fun _ h => h.2) (fun t => ?_) (by grind))
    -- The statements before were read up to the token that this one starts with.
    have hafter : ∀ a ∈ before.toList, a.span.stop ≤ s.span.start := by
      intro a ha
      have hc := hc.holds t
      have hbefore := ((hc.placed _ (hin (List.mem_map_of_mem ha))).inside a (.refl _)).2
      rw [statement_span hn hc.standsIn (hm.holds t).1]
      exact Nat.le_trans hbefore hc.standsIn.last_le
    rw [Production.Ready, Array.toList_push]
    exact List.pairwise_append.2 ⟨hordered t, List.pairwise_singleton _ _, fun a ha t ht => by
      cases List.mem_singleton.1 ht
      exact hafter a ha⟩

theorem spread_labelled (hc : Spread source o nodes c) {start : Span} (hstart : start.start ≤ c.current.span.start)
    (hs : statement n c = .ok (s, m)) (hm : Spread source o (nodes ++ [Node.stmt s]) m)
    (hspans : Production.statement.Closes c s m) :
    Spread source o (nodes ++ s.kind.children) m ∧ start.cover s.span = start.cover m.last := by
  refine ⟨?_, ?_⟩
  · have hstmt := hm.placed (.stmt s) (by grind)
    exact (hm.sub (by grind)).add fun x hx => hstmt.below (.child (.refl x) hx)
  · have hcover := hspans.span
    have hexact := statement_span hn hc.standsIn hs
    rw [hexact, Span.cover, Span.mk.injEq] at hcover
    simp only [hexact, Span.cover, Span.mk.injEq, and_true]
    omega

theorem steps_labelled (hc : Gathered T source o c false nodes c) (start : Span) (e : Expr) (hin : [.expr e] ⊆ nodes)
    (hstart : T → start.start ≤ c.current.span.start) :
    Steps T n n' c 0 false Stmt.placeless
      (fun s m => Spread source o (nodes ++ s.kind.children) m ∧ (Production.labelled start e).Closes c s m)
      (labelled (n + 1) start e) (labelled (n' + 1) start e) (labelled (n + 1) .nowhere e.placeless) c := by
  have hplain : Steps T n n' c 0 false Stmt.placeless
      (fun s m => Spread source o (nodes ++ s.kind.children) m ∧ (Production.labelled start e).Closes c s m)
      (semicolon >>= fun _ => close start (.expression e)) (semicolon >>= fun _ => close start (.expression e))
      (semicolon >>= fun _ => close .nowhere (.expression e.placeless)) c :=
    .bind (.semicolon hc) fun _ _ hm => .close hm (by grind)
  refine .atMark_bind ?_
  cases h : c.current.kind.isMark .colon with
  | false => cases e <;> exact hplain
  | true =>
    cases e with
    | identifier id =>
      have hcolon := TokenKind.not_eof_of_isMark h
      refine .bind (.remember (.take hc hcolon)) fun _ k hk =>
        .bind (.remember (.call hn .statement (hk.imp fun _ h => h.2) (.inl rfl) (List.nil_subset _) fun _ => trivial))
          fun s m hm => ?_
      obtain ⟨labels, span, kind⟩ := s
      change Steps _ _ _ _ _ _ _ _ (if labels.contains id.name = true then _ else _)
        (if labels.contains id.name = true then _ else _) (if labels.contains id.name = true then _ else _) _
      split
      · exact .throws_bind fun h => by cases h
      · refine .weaken (.pure (hm.imp fun t hm => ?_))
        obtain ⟨hadvance, hnext⟩ := hk.holds t
        cases hadvance
        have hstands := (hc.holds t).standsIn
        obtain ⟨hparts, hspan⟩ := spread_labelled hn hnext
          (Nat.le_trans (hstart t) (hstands.start_le (hstands.next hcolon))) hm.1 hm.2.1 hm.2.2
        refine ⟨hparts, hspan, fun name rest hlabels => ?_⟩
        cases hlabels
        exact ⟨id.span, rfl⟩
    | _ => exact hplain

theorem steps_statement (hclosed : c.Closed) : Steps (c.StandsIn source) n n' c 8 true Stmt.placeless
    (fun s m => Spread source c ([] ++ s.kind.children) m ∧ Production.statement.Closes c s m)
    (statement (n + 1)) (statement (n' + 1)) (statement (n + 1)) c := by
  have hc : Gathered (c.StandsIn source) source c c false [] c := ⟨hclosed.past, .start⟩
  refine .token_bind (.kind_bind ?_)
  split
  case h_1 h =>
    exact .bind (.take hc (h ▸ rfl)) fun _ _ hm => .bind (.later hn (.declarators true #[]) hm rfl) fun _ _ hm =>
      .bind (.semicolon hm) fun _ _ hm => .close hm (by grind)
  case h_4 h =>
    exact .bind (.opens hn (.function true) hc (.inr rfl) rfl fun _ => h ▸ rfl) fun _ _ hm => .close hm (by grind)
  case h_5 h => exact .bind (.opens hn .branch hc (.inr rfl) rfl fun _ => h ▸ rfl) fun _ _ hm => .close hm (by grind)
  case h_6 h => exact .bind (.opens hn .switch hc (.inr rfl) rfl fun _ => h ▸ rfl) fun _ _ hm => .close hm (by grind)
  case h_7 h =>
    exact .bind (.take hc (h ▸ rfl)) fun _ _ hm => .bind (.later hn .parenthesized hm rfl) fun _ _ hm =>
      .bind (.later hn .statement hm rfl) fun _ _ hm => .close hm (by grind)
  case h_8 h =>
    refine .bind (.take hc (h ▸ rfl)) fun _ _ hm => .bind (.later hn .statement hm rfl) fun body _ hm =>
      .bind (.expectWord hm) fun _ _ hm => .bind (.later hn .parenthesized hm rfl) fun test _ hm => .atMark_bind ?_
    extract_lets jp jp'
    have hjp : ∀ u m, Gathered (c.StandsIn source) source c c true ([] ++ [Node.stmt body] ++ [Node.expr test]) m →
        Steps (c.StandsIn source) n n' c 8 true Stmt.placeless
          (fun s m => Spread source c ([] ++ s.kind.children) m ∧ Production.statement.Closes c s m)
          (jp u) (jp u) (jp' u) m := fun _ _ hm => .close hm (by grind)
    split
    case isTrue h => exact .bind (.take hm (TokenKind.not_eof_of_isMark h)) hjp
    case isFalse => exact hjp () _ hm
  case h_9 h => exact .bind (.opens hn .forLoop hc (.inr rfl) rfl fun _ => h ▸ rfl) fun _ _ hm => .close hm (by grind)
  case h_10 h =>
    refine .bind (.take hc (h ▸ rfl)) fun _ _ hm => .token_bind ?_
    split
    · exact .bind (.semicolon hm) fun _ _ hm => .close hm (by grind)
    · exact .bind (.later hn (.expression true) hm rfl) fun _ _ hm => .bind (.semicolon hm) fun _ _ hm =>
        .close hm (by grind)
  case h_11 h | h_12 h =>
    exact .bind (.take hc (h ▸ rfl)) fun _ _ hm => .bind (.jumpLabel hm) fun _ _ hm => .close hm (by grind)
  case h_13 h =>
    refine .bind (.take hc (h ▸ rfl)) fun _ _ hm => .token_bind ?_
    split
    · exact .throws_bind fun h => by cases h
    · exact .bind (.later hn (.expression true) hm rfl) fun _ _ hm => .bind (.semicolon hm) fun _ _ hm =>
        .close hm (by grind)
  case h_14 h => exact .bind (.opens hn .attempt hc (.inr rfl) rfl fun _ => h ▸ rfl) fun _ _ hm => .close hm (by grind)
  case h_15 h =>
    exact .bind (.take hc (h ▸ rfl)) fun _ _ hm => .bind (.later hn .parenthesized hm rfl) fun _ _ hm =>
      .bind (.later hn .statement hm rfl) fun _ _ hm => .close hm (by grind)
  case h_16 h =>
    exact .bind (.take hc (h ▸ rfl)) fun _ _ hm => .bind (.semicolon hm) fun _ _ hm => .close hm (by grind)
  case h_17 => exact .bind (.first hn .block hc rfl rfl) fun _ _ hm => .close hm (by grind)
  case h_18 h => exact .bind (.take hc (h ▸ rfl)) fun _ _ hm => .close hm (by grind)
  case h_19 =>
    refine .bind (.remember (.first hn (.expression true) hc rfl rfl)) fun e m hm => ?_
    have hgathered : Gathered (c.StandsIn source) source c c true ([] ++ [Node.expr e]) m := hm.imp fun _ h => h.2
    refine (Steps.call hn (.labelled c.current.span e) hgathered (.inl rfl) (by grind) fun t => ?_).imp
      fun t s m' h => ?_
    · obtain ⟨read, hr⟩ := (hgathered.holds t).reads
      exact t.start_le hr
    · refine ⟨h.1.sub (by grind), h.2.span, fun name rest hlabels => ?_⟩
      obtain ⟨span, rfl⟩ := h.2.label name rest hlabels
      exact expression_names n c true _ m (hm.holds t).1 _ rfl
  all_goals exact .throws fun h => by cases h

end

/-! ## Calls as a whole -/

theorem read_steps {T : Prop} {source : String} {o c : Cursor} {nodes : List Node} {n n' : Nat} (hn : Known n)
    (hc : Gathered T source o c false nodes c) (d : Production α) (hin : d.inputs ⊆ nodes)
    (hready : T → d.Ready c) :
    Steps T n n' c d.rank d.consumes d.forget
      (fun a m => Spread source o (nodes ++ d.outputs a) m ∧ d.Closes c a m)
      (d.read (n + 1)) (d.read (n' + 1)) (d.placeless.read (n + 1)) c := by
  cases d with
  | statement =>
    have hsteps : Steps (c.StandsIn source) n n' c 8 true _ _ _ _ _ c := steps_statement hn hc.past.closed
    refine ⟨hsteps.reads, fun t s m hs => ?_, hsteps.agrees, hsteps.ends, hsteps.forgets⟩
    have hc := hc.holds t
    obtain ⟨hparts, hspans⟩ := hsteps.leads hc.standsIn s m hs
    exact ⟨spread_stmt hc (hsteps.reads s m hs) hs hparts hspans, hspans⟩
  | labelled start e => exact steps_labelled hn hc start e hin hready
  | statements stop before => exact (steps_statements hn hc stop before hin hready).and_true
  | function requireName => exact (steps_function hn hc requireName hready).and_true
  | branch => exact (steps_branch hn hc hready).and_true
  | switch => exact (steps_switch hn hc hready).and_true
  | forLoop => exact (steps_forLoop hn hc hready).and_true
  | attempt => exact (steps_attempt hn hc hready).and_true
  | newOperand => exact (steps_newOperand hn hc hready).and_true
  | declarators allowIn before => exact (steps_declarators hn hc allowIn before hin).and_true
  | parameters before => exact (steps_parameters hn hc before hin).and_true
  | clauses before => exact (steps_clauses hn hc before hin).and_true
  | countedLoop init => exact (steps_countedLoop hn hc init hin).and_true
  | keyLoop target => exact (steps_keyLoop hn hc target hin).and_true
  | commaList allowIn before => exact (steps_commaList hn hc allowIn before hin).and_true
  | climbFrom allowIn least left => exact (steps_climbFrom hn hc allowIn least left hin).and_true
  | suffixes base => exact (steps_suffixes hn hc base hin).and_true
  | accesses base => exact (steps_accesses hn hc base hin).and_true
  | access base => exact (steps_access hn hc base hin).and_true
  | call callee => exact (steps_call hn hc callee hin).and_true
  | elements before => exact (steps_elements hn hc before hin).and_true
  | properties before => exact (steps_properties hn hc before hin).and_true
  | block => exact (steps_block hn hc).and_true
  | parenthesized => exact (steps_parenthesized hn hc).and_true
  | expression allowIn => exact (steps_expression hn hc allowIn).and_true
  | climb allowIn least => exact (steps_climb hn hc allowIn least).and_true
  | unary => exact (steps_unary hn hc).and_true
  | updated => exact (steps_updated hn hc).and_true
  | leftHandSide => exact (steps_leftHandSide hn hc).and_true
  | primary => exact (steps_primary hn hc).and_true

theorem steps_of_closed {n n' : Nat} {c : Cursor} (hn : Known n) (hc : c.Closed) (d : Production α) :
    Steps False n n' c d.rank d.consumes d.forget (fun _ _ => True)
      (d.read (n + 1)) (d.read (n' + 1)) (d.placeless.read (n + 1)) c := by
  have hgathered : Gathered False "" c c false d.inputs c := ⟨hc.past, False.elim⟩
  exact (read_steps hn hgathered d (List.Subset.refl _) False.elim).imp fun t => t.elim

theorem Production.read_zero (d : Production α) (c : Cursor) : d.read 0 c = .error .exhausted := by
  cases d <;> rfl

theorem known (n : Nat) : Known n := by
  induction n with
  | zero =>
    refine ⟨fun α d c _ a m h => ?_, fun α d c _ => ?_, fun source α d o nodes c _ _ _ a m h => ?_⟩
    · rw [d.read_zero] at h
      cases h
    · rw [Production.read_zero, Production.read_zero]
      rfl
    · rw [d.read_zero] at h
      cases h
  | succ n ih =>
    have hsteps : ∀ {α : Type} (d : Production α) {c : Cursor}, c.Closed → Steps False n n c _ _ _ _ _ _ _ c :=
      fun d _ hc => steps_of_closed ih hc d
    refine ⟨fun α d c hc => (hsteps d hc).reads, fun α d c hc => (hsteps d hc).forgets,
      fun source α d o nodes c hin hready hc => ?_⟩
    have hgathered : Gathered True source o c false nodes c := ⟨hc.standsIn.closed.past, fun _ => hc⟩
    have hread : Steps True n n c _ _ _ _ _ _ _ c := read_steps ih hgathered d hin fun _ => hready
    exact hread.leads trivial

theorem read_agrees {n n' : Nat} {c : Cursor} (hc : c.Closed) (d : Production α)
    (h : AgreeBelow n n' (c.weight d.rank)) : d.read (n + 1) c = d.read (n' + 1) c :=
  (steps_of_closed (known n) hc d).agrees h

theorem read_ends {n : Nat} {c : Cursor} (hc : c.Closed) (d : Production α) (h : EndBelow n (c.weight d.rank)) :
    d.read (n + 1) c ≠ .error .exhausted :=
  have hsteps : Steps False n n c _ _ _ _ _ _ _ c := steps_of_closed (known n) hc d
  hsteps.ends h

theorem AgreeBelow.mono {n n' w w' : Nat} (h : AgreeBelow n n' w) (hw : w' ≤ w) : AgreeBelow n n' w' :=
  fun α d c hc hd => h α d c hc (Nat.lt_of_lt_of_le hd hw)

theorem EndBelow.mono {n w w' : Nat} (h : EndBelow n w) (hw : w' ≤ w) : EndBelow n w' :=
  fun α d c hc hd => h α d c hc (Nat.lt_of_lt_of_le hd hw)

theorem agreeBelow_of_le {w n n' : Nat} (hn : w ≤ n) (hn' : w ≤ n') : AgreeBelow n n' w := by
  induction w generalizing n n' with
  | zero => exact fun _ _ _ _ h => absurd h (Nat.not_lt_zero _)
  | succ w ih =>
    intro α d c hc hd
    obtain ⟨k, rfl⟩ := Nat.exists_eq_add_of_le' hn
    obtain ⟨k', rfl⟩ := Nat.exists_eq_add_of_le' hn'
    exact read_agrees hc d ((ih (Nat.le_add_left w k) (Nat.le_add_left w k')).mono (Nat.le_of_lt_succ hd))

theorem endBelow_of_le {w n : Nat} (hn : w ≤ n) : EndBelow n w := by
  induction w generalizing n with
  | zero => exact fun _ _ _ _ h => absurd h (Nat.not_lt_zero _)
  | succ w ih =>
    intro α d c hc hd
    obtain ⟨k, rfl⟩ := Nat.exists_eq_add_of_le' hn
    exact read_ends hc d ((ih (Nat.le_add_left w k)).mono (Nat.le_of_lt_succ hd))

end Grammar

end ScriptEngine
