/-
What is read between two cursors. While the grammar reads from one cursor to
another, what it builds stays between the two: `Spread` says so of a list of
nodes.
-/
import ScriptEngine.Proofs.Tree.Node
import ScriptEngine.Proofs.Tree.Stretch

namespace ScriptEngine

/-! ## Faithful nodes -/

/-- The statement was read from these tokens of a text and spans them. If it has labels, the first of them is
the first token. -/
structure Stmt.ReadFrom (source : String) (s : Stmt) (read : List Token) : Prop where
  consumed : ∃ n c m, Cursor.StandsIn source c ∧ c.Reads read m ∧ Grammar.statement n c = .ok (s, m)
  start : (read.head?.map fun t => t.span.start) = some s.span.start
  stop : (read.getLast?.map fun t => t.span.stop) = some s.span.stop
  label : ∀ name rest, s.labels = name :: rest → (read.head?.map fun t => t.kind) = some (.identifier name)

def Span.Inside (a b : Span) : Prop := b.start ≤ a.start ∧ a.stop ≤ b.stop

namespace Node

def Faithful (source : String) : Node → Prop
  | .identifier id => id.span.slice source = id.name
  | .stmt s => (∃ read, s.ReadFrom source read) ∧ ∀ t, (Node.stmt t).Below (.stmt s) → t.span.Inside s.span
  | .body ss => ss.Pairwise fun s t => s.span.stop ≤ t.span.start
  | .expr _ | .function _ => True

/-- All positions at a node and below are right, and its statements lie in a stretch of the text. -/
structure Placed (source : String) (stretch : Span) (x : Node) : Prop where
  faithful : ∀ y : Node, y.Below x → y.Faithful source
  inside : ∀ s, (Node.stmt s).Below x → s.span.Inside stretch

section

variable {source : String} {a b : Span} {x : Node}

theorem Placed.mono (h : x.Placed source a) (hab : a.Inside b) : x.Placed source b := by
  refine ⟨h.faithful, fun s hs => ?_⟩
  have hinside := h.inside s hs
  exact ⟨Nat.le_trans hab.1 hinside.1, Nat.le_trans hinside.2 hab.2⟩

theorem Placed.below {y : Node} (h : x.Placed source a) (hy : y.Below x) : y.Placed source a :=
  ⟨fun z hz => h.faithful z (hz.trans hy), fun s hs => h.inside s (hs.trans hy)⟩

theorem placed_of_children (hown : x.Faithful source) (hspan : ∀ s, x = .stmt s → s.span.Inside a)
    (hchildren : ∀ y ∈ x.children, y.Placed source a) : x.Placed source a := by
  constructor
  · intro y hy
    rcases below_iff.1 hy with rfl | ⟨z, hz, hy⟩
    · exact hown
    · exact (hchildren z hz).faithful y hy
  · intro s hs
    rcases below_iff.1 hs with rfl | ⟨z, hz, hs⟩
    · exact hspan s rfl
    · exact (hchildren z hz).inside s hs

end

end Node

theorem Operator.build_children {op : Operator} {operands : List Expr} {e : Expr} (h : op.build operands = .ok e) :
    ∀ x ∈ e.children, ∃ operand ∈ operands, x.Below (.expr operand) := by
  unfold Operator.build at h
  split at h
  case h_4 base property _ =>
    cases h
    simp [Expr.children, Node.Below.refl, Node.below_name]
  case h_10 items right _ =>
    cases h
    intro x hx
    obtain ⟨e, he, rfl⟩ := List.mem_map.1 hx
    rcases List.mem_append.1 he with he | he
    · exact ⟨_, List.mem_cons_self .., Node.below_item he⟩
    · exact ⟨e, List.mem_cons_of_mem _ he, .refl _⟩
  all_goals first
    | cases h
    | obtain ⟨-, rfl⟩ := ok_of_requireReference h
  all_goals simp [Expr.children, Node.Below.refl]

/-! ## What has been read between two cursors -/

/-- From the first cursor on tokens were read up to the second, and the nodes lie between the two. -/
structure Spread (source : String) (o : Cursor) (nodes : List Node) (m : Cursor) : Prop where
  origin : o.StandsIn source
  reads : ∃ read, o.Reads read m
  placed : ∀ x ∈ nodes, x.Placed source ⟨o.current.span.start, m.last.stop⟩

namespace Spread

variable {source : String} {o c m : Cursor} {nodes more : List Node}

theorem standsIn (h : Spread source o nodes m) : m.StandsIn source := by
  obtain ⟨read, hr⟩ := h.reads
  exact h.origin.reads hr

theorem start (h : c.StandsIn source) : Spread source c [] c :=
  ⟨h, ⟨[], .refl c⟩, fun _ hx => absurd hx List.not_mem_nil⟩

theorem sub (h : Spread source o nodes m) (hsub : more ⊆ nodes) : Spread source o more m :=
  ⟨h.origin, h.reads, fun x hx => h.placed x (hsub hx)⟩

theorem add (h : Spread source o nodes m) (hmore : ∀ x ∈ more, x.Placed source ⟨o.current.span.start, m.last.stop⟩) :
    Spread source o (nodes ++ more) m :=
  ⟨h.origin, h.reads, List.forall_mem_append.2 ⟨h.placed, hmore⟩⟩

theorem trans (h : Spread source o nodes c) (h' : Spread source c more m) : Spread source o (nodes ++ more) m := by
  obtain ⟨read, hr⟩ := h.reads
  obtain ⟨read', hr'⟩ := h'.reads
  have hlast := h.standsIn.last_le_last hr'
  have hstart := h.origin.start_le hr
  refine ⟨h.origin, ⟨_, hr.trans hr'⟩, List.forall_mem_append.2 ⟨fun x hx => ?_, fun x hx => ?_⟩⟩
  · exact (h.placed x hx).mono ⟨Nat.le_refl _, hlast⟩
  · exact (h'.placed x hx).mono ⟨hstart, Nat.le_refl _⟩

theorem next (h : Spread source o nodes m) (hk : m.current.kind.isEof = false) : Spread source o nodes m.next := by
  have hnext : Spread source m [] m.next :=
    ⟨h.standsIn, ⟨_, h.standsIn.next hk⟩, fun _ hx => absurd hx List.not_mem_nil⟩
  simpa using h.trans hnext

theorem node {x : Node} (h : Spread source o nodes m) (hown : x.Faithful source) (hstmt : ∀ s, x ≠ .stmt s)
    (hx : more ++ x.children ⊆ nodes) : Spread source o (more ++ [x]) m := by
  obtain ⟨hmore, hx⟩ := List.append_subset.1 hx
  refine (h.sub hmore).add fun y hy => ?_
  cases List.mem_singleton.1 hy
  exact Node.placed_of_children hown (fun s hs => absurd hs (hstmt s)) fun y hy => h.placed y (hx hy)

theorem expr {e : Expr} (h : Spread source o nodes m) (he : more ++ e.children ⊆ nodes) :
    Spread source o (more ++ [Node.expr e]) m :=
  h.node trivial (fun _ hs => by cases hs) he

theorem function {f : FunctionTree} (h : Spread source o nodes m) (hf : more ++ f.children ⊆ nodes) :
    Spread source o (more ++ [Node.function f]) m :=
  h.node trivial (fun _ hs => by cases hs) hf

theorem body {ss : List Stmt} (h : Spread source o nodes m) (hss : more ++ ss.map Node.stmt ⊆ nodes)
    (hordered : ss.Pairwise fun s t => s.span.stop ≤ t.span.start) : Spread source o (more ++ [Node.body ss]) m :=
  h.node hordered (fun _ hs => by cases hs) hss

theorem identifier {name : String} (h : Spread source o nodes m) (hk : Scanner.spelling? m.current.kind = some name) :
    Spread source o (nodes ++ [Node.identifier ⟨name, m.current.span⟩]) m :=
  h.node (Scanner.slice_spelling h.standsIn.current_mem hk) (fun _ hs => by cases hs) (by simp [Node.children])

end Spread

end ScriptEngine
