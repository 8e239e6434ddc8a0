/-
Written trees are read back. What reading does is followed level by level: a
tree at the front of the tokens is read by the function of the grammar for its
level, which goes on with what follows. Main statement: `ofTokens_tokens`.
-/
import ScriptEngine.Proofs.Tree.Written

namespace ScriptEngine

namespace Grammar

open Parse

/-! ## Levels

At each level: from a cursor that spells the tree, the function of that level
reads it with fuel for ten calls to a token. -/

section Levels

variable {e : Expr}
variable {k : TokenKind} {ks : List TokenKind} {c c' : Cursor} {l r object callee : Expr} {items : List α}
  {es : List (Option Expr)}

def ReadsPrimary (e : Expr) : Prop :=
  ∀ n c c', c.Spells e.tokens c' → 10 * e.tokens.length ≤ n + 5 →
    ∃ e' : Expr, e'.bare = e.bare ∧ primary n c = .ok (e', c')

/-- A chain is read up to its end, and more suffixes may follow. -/
def ReadsChain (e : Expr) : Prop :=
  ∀ n c c', c.Spells e.tokens c' → 10 * e.tokens.length ≤ n + 4 →
    ∃ (e' : Expr) (n' : Nat), e'.bare = e.bare ∧ n ≤ n' + e.tokens.length ∧ leftHandSide n c = suffixes n' e' c'

/-- A chain without calls behind `new` is read up to its end, and more accesses may follow. -/
def ReadsBase (e : Expr) : Prop :=
  ∀ n c c', c.Spells e.tokens c' → (Precedence.member ≤ e.binds ∨ c'.EndsSuffixes) → 10 * e.tokens.length ≤ n + 5 →
    ∃ (e' : Expr) (n' : Nat), e'.bare = e.bare ∧ n ≤ n' + e.tokens.length ∧
      (newBase n >>= accesses n) c = accesses n' e' c'

def ReadsNew (e : Expr) : Prop :=
  ∀ n c c', c.current.kind = .word .newWord → c.next.Spells e.tokens c' →
    (Precedence.member ≤ (Expr.new e).binds ∨ c'.EndsSuffixes) → 10 * e.tokens.length ≤ n + 4 →
    ∃ e' : Expr, e'.bare = e.bare ∧ newOperand n c = .ok (e', c')

def ReadsUnary (e : Expr) : Prop :=
  ∀ n c c', c.Spells e.tokens c' → c'.Unsuffixed → 10 * e.tokens.length ≤ n + 2 →
    ∃ e' : Expr, e'.bare = e.bare ∧ unary n c = .ok (e', c')

/-- A climb that may stop in front of the tree's operator reads the tree, and more operators may follow. -/
def ReadsClimb (e : Expr) : Prop :=
  ∀ n least c c', least ≤ e.binds → c.Spells e.tokens c' → c'.Unsuffixed → c'.Takes true e →
    10 * e.tokens.length ≤ n + 1 →
    ∃ (e' : Expr) (n' : Nat), e'.bare = e.bare ∧ n ≤ n' + e.tokens.length ∧
      climb n true least c = climbFrom n' true least e' c'

def ReadsExpression (e : Expr) : Prop :=
  ∀ n c c', c.Spells e.tokens c' → c'.current.kind.closes = true → c'.current.kind.isMark .comma = false →
    10 * e.tokens.length ≤ n → ∃ e' : Expr, e'.bare = e.bare ∧ expression n true c = .ok (e', c')

/-- The tree is read at every level it binds tightly enough for. -/
structure ReadsBack (e : Expr) : Prop where
  head : ∃ k ks, e.tokens = k :: ks ∧ k.closes = false ∧ (Precedence.new ≤ e.binds → Operator.before? k = none)
  chain : Precedence.member ≤ e.binds → ReadsChain e
  base : Precedence.new ≤ e.binds → e.callless = true → ReadsBase e
  new : e.FitsNew → ReadsNew e
  unary : Precedence.unary ≤ e.binds → ReadsUnary e
  climb : Precedence.assignment ≤ e.binds → ReadsClimb e
  expression : ReadsExpression e

theorem exists_succ (n : Nat) (h : 0 < n) : ∃ m, n = m + 1 := Nat.exists_eq_add_one.2 h

theorem tokens_pos (h : e.tokens = k :: ks) : 0 < e.tokens.length := by
  rw [h]
  exact Nat.succ_pos _

theorem ReadsBack.length_pos (h : ReadsBack e) : 0 < e.tokens.length := by
  obtain ⟨k, ks, hk, -⟩ := h.head
  exact tokens_pos hk

theorem ReadsBack.not_closes (h : ReadsBack e) (hc : c.Spells e.tokens c') : c.current.kind.closes = false := by
  obtain ⟨k, ks, htokens, hk, -⟩ := h.head
  rw [htokens] at hc
  rw [hc.1.1, hk]

/-! ### From level to level -/

theorem ReadsPrimary.chain (h : ReadsPrimary e) (htokens : e.tokens = k :: ks) (hk : k.isWord .newWord = false) :
    ReadsChain e := by
  intro n c c' hc hn
  have hlen : 0 < e.tokens.length := tokens_pos htokens
  obtain ⟨n, rfl⟩ := exists_succ n (by omega)
  obtain ⟨e', he', hrun⟩ := h n c c' hc (by omega)
  have hkind : c.current.kind.isWord .newWord = false := by
    rw [htokens] at hc
    rw [hc.1.1, hk]
  exact ⟨e', n, he', by omega, leftHandSide_primary hkind hrun⟩

theorem ReadsPrimary.base (h : ReadsPrimary e) (htokens : e.tokens = k :: ks) (hk : k.isWord .newWord = false) :
    ReadsBase e := by
  intro n c c' hc _ hn
  obtain ⟨e', he', hrun⟩ := h n c c' hc hn
  have hkind : c.current.kind.isWord .newWord = false := by
    rw [htokens] at hc
    rw [hc.1.1, hk]
  have hbase : newBase n c = .ok (e', c') := by
    rw [newBase, atWord_run, hkind]
    exact hrun
  exact ⟨e', n, he', Nat.le_add_right .., bind_run hbase⟩

theorem ReadsBase.new (h : ReadsBase e) (hlen : 0 < e.tokens.length) (hbinds : (Expr.new e).binds < Precedence.member) :
    ReadsNew e := by
  intro n c c' hk hc hends hn
  have hends := hends.resolve_left (Nat.not_le.2 hbinds)
  obtain ⟨n, rfl⟩ := exists_succ n (by omega)
  obtain ⟨e', n', he', hn', hrun⟩ := h n c.next c' hc (.inr hends) (by omega)
  have hrun := hrun.trans (accesses_ends hends.1 (by omega))
  refine ⟨e', he', ?_⟩
  rw [newOperand_base hrun, hends.2]
  rfl

theorem ReadsChain.unary (h : ReadsChain e) (htokens : e.tokens = k :: ks) (hk : Operator.before? k = none) :
    ReadsUnary e := by
  intro n c c' hc hends hn
  have hlen : 0 < e.tokens.length := tokens_pos htokens
  obtain ⟨n, rfl⟩ : ∃ m, n = m + 2 := Nat.exists_eq_add_of_le' (by omega)
  obtain ⟨e', n', he', hn', hrun⟩ := h n c c' hc (by omega)
  have hkind : Operator.before? c.current.kind = none := by
    rw [htokens] at hc
    rw [hc.1.1, hk]
  have hrun := hrun.trans (suffixes_ends hends.1 (by omega))
  exact ⟨e', he', (unary_updated hkind).trans (updated_plain hrun hends.2)⟩

theorem ReadsUnary.climb (h : ReadsUnary e) (hlen : 0 < e.tokens.length) : ReadsClimb e := by
  intro n least c c' _ hc hends _ hn
  obtain ⟨n, rfl⟩ := exists_succ n (by omega)
  obtain ⟨e', he', hrun⟩ := h n c c' hc hends (by omega)
  refine ⟨e', n, he', by omega, ?_⟩
  rw [Grammar.climb, bind_run hrun]

theorem ReadsClimb.closes (h : ReadsClimb e) (hlen : 0 < e.tokens.length) (hbinds : Precedence.assignment ≤ e.binds)
    {n : Nat} (hc : c.Spells e.tokens c') (hclose : c'.current.kind.closes = true) (hn : 10 * e.tokens.length ≤ n + 1) :
    ∃ e' : Expr, e'.bare = e.bare ∧ Grammar.climb n true Precedence.assignment c = .ok (e', c') := by
  have hstops := Cursor.stops_of_closes hclose
  obtain ⟨e', n', he', hn', hrun⟩ := h n _ c c' hbinds hc (Cursor.unsuffixed_of_closes hclose)
    (takes_of_stops_assignment hbinds hstops) hn
  exact ⟨e', he', hrun.trans (climbFrom_stops hstops (by omega))⟩

theorem ReadsClimb.expression (h : ReadsClimb e) (hlen : 0 < e.tokens.length)
    (hbinds : Precedence.assignment ≤ e.binds) : ReadsExpression e := by
  intro n c c' hc hclose hcomma hn
  obtain ⟨n, rfl⟩ := exists_succ n (by omega)
  obtain ⟨e', he', hrun⟩ := h.closes hlen hbinds hc hclose hn
  refine ⟨e', he', ?_⟩
  rw [Grammar.expression, bind_run hrun, atMark_run,
    hcomma]
  rfl

/-! ### From the native level to all others -/

theorem absurd_of_lt {b least more : Nat} {p : Prop} (hlt : b < least) (hle : least ≤ more) (hge : more ≤ b) : p :=
  absurd hge (Nat.not_le.2 (Nat.lt_of_lt_of_le hlt hle))

theorem not_fitsNew (h : e.binds < Precedence.new) : ¬e.FitsNew := by
  cases e with
  | call callee arguments => exact absurd h (by decide : ¬Precedence.member < Precedence.new)
  | _ => exact fun hfits => Nat.not_le.2 h hfits.1

section Native

variable {k : TokenKind} {ks : List TokenKind} (htokens : e.tokens = k :: ks) (hk : k.closes = false)
include htokens hk

theorem ReadsClimb.readsBack (h : ReadsClimb e) (hbinds : Precedence.assignment ≤ e.binds)
    (hlt : e.binds < Precedence.unary) : ReadsBack e where
  head := ⟨k, ks, htokens, hk, fun hge => absurd_of_lt hlt (by decide) hge⟩
  chain hge := absurd_of_lt hlt (by decide) hge
  base hge := absurd_of_lt hlt (by decide) hge
  new hfits := absurd hfits (not_fitsNew (Nat.lt_of_lt_of_le hlt (by decide)))
  unary hge := absurd_of_lt hlt (Nat.le_refl _) hge
  climb _ := h
  expression := h.expression (tokens_pos htokens) hbinds

theorem ReadsUnary.readsBack (h : ReadsUnary e) (hbinds : Precedence.unary ≤ e.binds)
    (hlt : e.binds < Precedence.new) : ReadsBack e where
  head := ⟨k, ks, htokens, hk, fun hge => absurd_of_lt hlt (Nat.le_refl _) hge⟩
  chain hge := absurd_of_lt hlt (by decide) hge
  base hge := absurd_of_lt hlt (Nat.le_refl _) hge
  new hfits := absurd hfits (not_fitsNew hlt)
  unary _ := h
  climb _ := h.climb (tokens_pos htokens)
  expression := (h.climb (tokens_pos htokens)).expression (tokens_pos htokens)
    (Nat.le_trans (by decide) hbinds)

theorem ReadsChain.readsBack (h : ReadsChain e) (hbefore : Operator.before? k = none)
    (hbinds : Precedence.member ≤ e.binds) (hbase : e.callless = true → ReadsBase e) (hnew : e.FitsNew → ReadsNew e) :
    ReadsBack e where
  head := ⟨k, ks, htokens, hk, fun _ => hbefore⟩
  chain _ := h
  base _ := hbase
  new := hnew
  unary _ := h.unary htokens hbefore
  climb _ := (h.unary htokens hbefore).climb (tokens_pos htokens)
  expression := ((h.unary htokens hbefore).climb (tokens_pos htokens)).expression
    (tokens_pos htokens) (Nat.le_trans (by decide) hbinds)

theorem ReadsPrimary.readsBack (h : ReadsPrimary e) (hbefore : Operator.before? k = none)
    (hword : k.isWord .newWord = false) (hbinds : Precedence.member ≤ e.binds)
    (hnew : (Expr.new e).binds < Precedence.member) : ReadsBack e :=
  (h.chain htokens hword).readsBack htokens hk hbefore hbinds (fun _ => h.base htokens hword)
    fun _ => (h.base htokens hword).new (tokens_pos htokens) hnew

end Native

/-! ## Operators -/

theorem member_le_of_isReference (h : e.isReference = true) : Precedence.member ≤ e.binds := by
  cases e with
  | identifier | grouping => exact (by decide : Precedence.member ≤ Precedence.greatest)
  | member | index => exact Nat.le_refl _
  | _ => cases h

theorem ReadsClimb.between {op : Operator} (hl : ReadsClimb l) (hr : ReadsClimb r) (hlen : 0 < l.tokens.length)
    (htokens : e.tokens = l.tokens ++ k :: r.tokens) (hk : Operator.between? k = some op)
    (hop : op.kind ≠ .conditional) (hprimary : op.primary = e.binds)
    (hleft : op.primary ≤ l.binds ∧ Precedence.conditional < l.binds) (hright : op.secondary ≤ r.binds)
    (hrest : ∀ c : Cursor, c.Takes true e → c.Takes true r ∧ c.Stops true op.secondary)
    (hbuild : ∀ l' r' : Expr, l'.bare = l.bare → r'.bare = r.bare →
      ∃ e' : Expr, op.build [l', r'] = .ok e' ∧ e'.bare = e.bare) :
    ReadsClimb e := by
  intro n least c c' hleast hc hends htakes hn
  rw [htokens] at hc
  simp only [htokens, List.length_append, List.length_cons] at hn ⊢
  obtain ⟨m, hcl, ⟨⟨hkind, -⟩, hcr⟩⟩ := Cursor.spells_append hc
  have hbetween : Operator.between? m.current.kind = some op := by rw [hkind, hk]
  obtain ⟨l', n₁, hl', hn₁, hrunl⟩ := hl n least c m (by omega) hcl (Cursor.unsuffixed_of_between? hbetween)
    (Cursor.takes_of_between? hbetween hleft.1 hleft.2) (by omega)
  obtain ⟨n₁, rfl⟩ := exists_succ n₁ (by omega)
  obtain ⟨hrtakes, hrstops⟩ := hrest c' htakes
  obtain ⟨r', n₂, hr', hn₂, hrunr⟩ := hr n₁ op.secondary m.next c' hright hcr hends hrtakes (by omega)
  have hrunr := hrunr.trans (climbFrom_stops hrstops (by omega))
  obtain ⟨e', hbuilt, he'⟩ := hbuild l' r' hl' hr'
  refine ⟨e', n₁, he', by omega, hrunl.trans ?_⟩
  exact climbFrom_between hbetween (hprimary ▸ hleast) hop hrunr hbuilt

theorem takes_and_stops_of_lt (htakes : c.Takes true e) (hcond : Precedence.conditional < e.binds)
    (hlt : e.binds < r.binds) :
    c.Takes true r ∧ c.Stops true (e.binds + 1) :=
  ⟨fun op hop => ⟨Nat.le_trans (htakes op hop).1 (Nat.le_of_lt hlt), .inl (Nat.lt_trans hcond hlt)⟩,
    fun op hop => Nat.lt_succ_of_le (htakes op hop).1⟩

theorem stops_of_le_conditional (htakes : c.Takes true e) (hle : e.binds ≤ Precedence.conditional) :
    c.Stops true Precedence.assignment :=
  fun op hop => (htakes op hop).2.resolve_left (Nat.not_lt.2 hle)

theorem ReadsBack.leftGrouping {op : Operator} {power : Nat} (hl : ReadsBack l) (hr : ReadsBack r)
    (hpower : Precedence.conditional < power) (hleft : power ≤ l.binds) (hright : power < r.binds)
    (htokens : e.tokens = l.tokens ++ k :: r.tokens) (hk : Operator.between? k = some op)
    (hop : op.kind ≠ .conditional) (hprimary : op.primary = power) (hsecondary : op.secondary = power + 1)
    (hbinds : e.binds = power)
    (hbuild : ∀ l' r' : Expr, l'.bare = l.bare → r'.bare = r.bare →
      ∃ e' : Expr, op.build [l', r'] = .ok e' ∧ e'.bare = e.bare) : ReadsClimb e := by
  refine (hl.climb (Nat.le_trans (by decide) (Nat.le_trans (Nat.le_of_lt hpower) hleft))).between
    (hr.climb (Nat.le_trans (by decide) (Nat.le_trans (Nat.le_of_lt hpower) (Nat.le_of_lt hright))))
    hl.length_pos htokens hk hop (hprimary.trans hbinds.symm)
    ⟨hprimary ▸ hleft, Nat.lt_of_lt_of_le hpower hleft⟩ (hsecondary ▸ hright) (fun c htakes => ?_) hbuild
  rw [hsecondary, ← hbinds]
  exact takes_and_stops_of_lt htakes (hbinds ▸ hpower) (hbinds ▸ hright)

theorem readsClimb_binary {op : BinaryOp} (hl : ReadsBack l) (hr : ReadsBack r) (hleft : op.power ≤ l.binds)
    (hright : op.power < r.binds) : ReadsClimb (.binary op l r) :=
  hl.leftGrouping hr op.power_bounds.1 hleft hright rfl op.between?_token nofun rfl rfl rfl
    fun l' r' hl' hr' => ⟨.binary op l' r', rfl, (congrArg (Expr.binary op · _) hl').trans (congrArg _ hr')⟩

theorem readsClimb_logical {op : LogicalOp} (hl : ReadsBack l) (hr : ReadsBack r) (hleft : op.power ≤ l.binds)
    (hright : op.power < r.binds) : ReadsClimb (.logical op l r) :=
  hl.leftGrouping hr op.power_bounds.1 hleft hright rfl op.between?_token nofun rfl rfl rfl
    fun l' r' hl' hr' => ⟨.logical op l' r', rfl, (congrArg (Expr.logical op · _) hl').trans (congrArg _ hr')⟩

theorem readsClimb_assignment {op : Option BinaryOp} (hl : ReadsBack l) (hr : ReadsBack r)
    (hop : (assignmentMark? op).isSome = true) (href : l.isReference = true) (hright : Precedence.assignment ≤ r.binds) :
    ReadsClimb (.assignment op l r) := by
  have hmember := member_le_of_isReference href
  refine (hl.climb (Nat.le_trans (by decide) hmember)).between (hr.climb hright) hl.length_pos rfl
    (between?_assignmentToken hop) nofun rfl
    ⟨Nat.le_trans (by decide : Precedence.assignment ≤ Precedence.member) hmember,
      Nat.lt_of_lt_of_le (by decide) hmember⟩
    hright (fun c htakes => ?_) fun l' r' hl' hr' => ⟨.assignment op l' r', ?_, ?_⟩
  · have hstops := stops_of_le_conditional htakes (by decide : Precedence.assignment ≤ Precedence.conditional)
    exact ⟨takes_of_stops_assignment hright hstops, hstops⟩
  · exact requireReference_bind ((Expr.isReference_eq hl').trans href)
  · exact (congrArg (Expr.assignment op · _) hl').trans (congrArg _ hr')

theorem readsClimb_conditional {test a b : Expr} (ht : ReadsBack test) (ha : ReadsBack a) (hb : ReadsBack b)
    (htest : Precedence.conditional < test.binds) (hleft : Precedence.assignment ≤ a.binds)
    (hright : Precedence.assignment ≤ b.binds) : ReadsClimb (.conditional test a b) := by
  intro n least c c' hleast hc hends htakes hn
  have hlent := ht.length_pos
  have hlena := ha.length_pos
  have hlenb := hb.length_pos
  simp only [Expr.tokens, List.length_append, List.length_cons] at hn ⊢
  obtain ⟨m, hct, ⟨⟨hquestion, -⟩, hrest⟩⟩ := Cursor.spells_append hc
  obtain ⟨m', hca, ⟨⟨hcolon, -⟩, hcb⟩⟩ := Cursor.spells_append hrest
  have hbetween : Operator.between? m.current.kind = some .conditional := by rw [hquestion]; rfl
  have hcloses : m'.current.kind.closes = true := by rw [hcolon]; rfl
  obtain ⟨test', n₁, ht', hn₁, hrunt⟩ := ht.climb (Nat.le_trans (by decide) (Nat.le_of_lt htest)) n least c m
    (Nat.le_trans hleast (Nat.le_of_lt htest)) hct (Cursor.unsuffixed_of_between? hbetween)
    (Cursor.takes_of_between? hbetween (Nat.le_of_lt htest) htest) (by omega)
  obtain ⟨n₁, rfl⟩ := exists_succ n₁ (by omega)
  obtain ⟨a', ha', hruna⟩ := (ha.climb hleft).closes hlena hleft (n := n₁) hca hcloses (by omega)
  have hstops := stops_of_le_conditional htakes (Nat.le_refl Precedence.conditional)
  obtain ⟨b', n₂, hb', hn₂, hrunb⟩ := hb.climb hright n₁ Precedence.assignment m'.next c' hright hcb hends
    (takes_of_stops_assignment hright hstops) (by omega)
  have hrunb := hrunb.trans (climbFrom_stops hstops (by omega))
  refine ⟨.conditional test' a' b', n₁, ?_, by omega, hrunt.trans ?_⟩
  · change Expr.conditional _ _ _ = .conditional _ _ _
    rw [ht', ha', hb']
  · exact climbFrom_conditional hquestion hleast hruna hcolon hrunb

theorem readsUnary_unary {op : UnaryOp} (h : ReadsBack e) (hbinds : Precedence.unary ≤ e.binds) :
    ReadsUnary (.unary op e) := by
  rintro n c c' ⟨⟨hk, -⟩, hc⟩ hends hn
  have hlen := h.length_pos
  have hcons : (Expr.unary op e).tokens.length = e.tokens.length + 1 := rfl
  obtain ⟨n, rfl⟩ := exists_succ n (by omega)
  obtain ⟨e', he', hrun⟩ := h.unary hbinds n c.next c' hc hends (by omega)
  refine ⟨.unary op e', congrArg (Expr.unary op) he', ?_⟩
  exact unary_before (by rw [hk, op.before?_token]) hrun rfl

theorem readsUnary_updateBefore {op : UpdateOp} (h : ReadsBack e) (href : e.isReference = true) :
    ReadsUnary (.update op true e) := by
  rintro n c c' ⟨⟨hk, -⟩, hc⟩ hends hn
  have hlen := h.length_pos
  have hcons : (Expr.update op true e).tokens.length = e.tokens.length + 1 := rfl
  obtain ⟨n, rfl⟩ := exists_succ n (by omega)
  obtain ⟨e', he', hrun⟩ := h.unary (Nat.le_trans (by decide) (member_le_of_isReference href)) n c.next c' hc hends
    (by omega)
  have hbefore : Operator.before? c.current.kind = some (.updateBefore op) := by rw [hk, op.before?_token]
  refine ⟨.update op true e', congrArg (Expr.update op true) he', unary_before hbefore hrun ?_⟩
  exact requireReference_bind ((Expr.isReference_eq he').trans href)

theorem readsUnary_updateAfter {op : UpdateOp} (h : ReadsBack e) (href : e.isReference = true) :
    ReadsUnary (.update op false e) := by
  intro n c c' hc hends hn
  have hmember := member_le_of_isReference href
  have hlen := h.length_pos
  simp only [Expr.tokens, List.length_append, List.length_cons, List.length_nil] at hn
  obtain ⟨m, hce, ⟨⟨hk, hline⟩, rfl⟩⟩ := Cursor.spells_append hc
  have hafter : Operator.after? m.current.kind = some (.updateAfter op) := by rw [hk, op.after?_token]
  have hends : m.EndsSuffixes := by
    rw [Cursor.EndsSuffixes, Cursor.EndsAccesses, hk]
    cases op <;> exact ⟨⟨rfl, rfl⟩, rfl⟩
  obtain ⟨n, rfl⟩ : ∃ m, n = m + 2 := Nat.exists_eq_add_of_le' (by omega)
  obtain ⟨e', n', he', hn', hrun⟩ := h.chain hmember n c m hce (by omega)
  have hrun := hrun.trans (suffixes_ends hends (by omega))
  have hbefore : Operator.before? c.current.kind = none := by
    obtain ⟨k, ks, htokens, -, hbefore⟩ := h.head
    rw [htokens] at hce
    rw [hce.1.1, hbefore (Nat.le_trans (by decide) hmember)]
  refine ⟨.update op false e', congrArg (Expr.update op false) he', (unary_updated hbefore).trans ?_⟩
  exact updated_after hrun hafter (hline (by rw [op.after?_token]; rfl))
    (requireReference_bind ((Expr.isReference_eq he').trans href))

/-! ## Chains -/

def ReadsAccess (object e : Expr) (ks : List TokenKind) : Prop :=
  ∀ n object' c c', object'.bare = object.bare → c.Spells ks c' → 10 * ks.length ≤ n + 10 →
    (c.current.kind = .mark .dot ∨ c.current.kind = .mark .leftBracket) ∧
      ∃ e' : Expr, e'.bare = e.bare ∧ access n object' c = .ok (e', c')

theorem readsAccess_member {property : Identifier} :
    ReadsAccess object (.member object property) [.mark .dot, nameToken property.name] := by
  rintro n object' c c' hobject ⟨⟨hdot, -⟩, ⟨hname, -⟩, rfl⟩ hn
  obtain ⟨n, rfl⟩ := exists_succ n (by
    simp only [List.length_cons, List.length_nil] at hn
    omega)
  obtain ⟨id, hid, hrun⟩ := access_member hdot hname
  refine ⟨.inl hdot, _, ?_, hrun⟩
  exact (congrArg (Expr.member · _) hobject).trans (congrArg (Expr.member _ ⟨·, ⟨0, 0⟩⟩) hid)

theorem readsAccess_index {key : Expr} (h : ReadsBack key) :
    ReadsAccess object (.index object key) (.mark .leftBracket :: (key.tokens ++ [TokenKind.mark .rightBracket])) := by
  rintro n object' c c' hobject ⟨⟨hopen, -⟩, hc⟩ hn
  simp only [List.length_cons, List.length_append, List.length_nil] at hn
  obtain ⟨m, hkey, ⟨hclose, -⟩, rfl⟩ := Cursor.spells_append hc
  obtain ⟨n, rfl⟩ := exists_succ n (by omega)
  obtain ⟨key', hkey', hrun⟩ := h.expression n c.next m hkey (by rw [hclose]; rfl) (by rw [hclose]; rfl) (by omega)
  refine ⟨.inr hopen, _, ?_, access_index hopen hrun hclose⟩
  exact (congrArg (Expr.index · _) hobject).trans (congrArg _ hkey')

section Access

variable {object : Expr} {ks : List TokenKind} (ha : ReadsAccess object e ks)
  (htokens : e.tokens = object.tokens ++ ks) (hlen : 0 < object.tokens.length) (hks : 0 < ks.length)
include ha htokens hlen hks

theorem ReadsChain.access (h : ReadsChain object) : ReadsChain e := by
  intro n c c' hc hn
  rw [htokens] at hc
  simp only [htokens, List.length_append] at hn ⊢
  obtain ⟨m, hobject, hks⟩ := Cursor.spells_append hc
  obtain ⟨object', n₁, hobject', hn₁, hrun⟩ := h n c m hobject (by omega)
  obtain ⟨n₁, rfl⟩ := exists_succ n₁ (by omega)
  obtain ⟨hkind, e', he', hrun'⟩ := ha n₁ object' m c' hobject' hks (by omega)
  exact ⟨e', n₁, he', by omega, hrun.trans (suffixes_access hkind hrun')⟩

theorem ReadsBase.access (h : ReadsBase object) (hbinds : Precedence.member ≤ object.binds) : ReadsBase e := by
  intro n c c' hc _ hn
  rw [htokens] at hc
  simp only [htokens, List.length_append] at hn ⊢
  obtain ⟨m, hobject, hks⟩ := Cursor.spells_append hc
  obtain ⟨object', n₁, hobject', hn₁, hrun⟩ := h n c m hobject (.inl hbinds) (by omega)
  obtain ⟨n₁, rfl⟩ := exists_succ n₁ (by omega)
  obtain ⟨hkind, e', he', hrun'⟩ := ha n₁ object' m c' hobject' hks (by omega)
  exact ⟨e', n₁, he', by omega, hrun.trans (accesses_access hkind hrun')⟩

theorem ReadsAccess.readsBack (h : ReadsBack object) (hbinds : Precedence.member ≤ object.binds)
    (he : e.binds = Precedence.member) (hless : e.callless = object.callless)
    (hnew : (Expr.new e).binds < Precedence.member) : ReadsBack e := by
  obtain ⟨k, ls, hobject, hk, hbefore⟩ := h.head
  have hnew' : Precedence.new ≤ object.binds := Nat.le_trans (by decide) hbinds
  have htokens' : e.tokens = k :: (ls ++ ks) := by rw [htokens, hobject, List.cons_append]
  have hbase (hl : e.callless = true) : ReadsBase e :=
    (h.base hnew' (hless ▸ hl)).access ha htokens hlen hks hbinds
  refine ((h.chain hbinds).access ha htokens hlen hks).readsBack htokens' hk (hbefore hnew')
    (Nat.le_of_eq he.symm) hbase fun hfits => ?_
  refine (hbase ?_).new (tokens_pos htokens') hnew
  cases e with
  | call callee arguments => exact absurd hnew (by decide : ¬Precedence.greatest < Precedence.member)
  | _ => exact hfits.2

end Access

theorem readsBack_member {property : Identifier} (h : ReadsBack object) (hbinds : Precedence.member ≤ object.binds) :
    ReadsBack (.member object property) :=
  readsAccess_member.readsBack rfl h.length_pos (by decide : 0 < 2) h hbinds rfl rfl
    (by decide : Precedence.new < Precedence.member)

theorem readsBack_index {key : Expr} (h : ReadsBack object) (hbinds : Precedence.member ≤ object.binds)
    (hkey : ReadsBack key) :
    ReadsBack (.index object key) :=
  (readsAccess_index hkey).readsBack rfl h.length_pos (Nat.succ_pos _) h hbinds rfl rfl
    (by decide : Precedence.new < Precedence.member)

/-! ### Calls -/

def ReadsCall (callee : Expr) (arguments : Option Expr) : Prop :=
  ∀ n callee' c c', callee'.bare = callee.bare →
    c.Spells (.mark .leftParen :: (optionTokens arguments ++ [TokenKind.mark .rightParen])) c' →
    10 * (optionTokens arguments).length + 10 ≤ n →
    c.current.kind = .mark .leftParen ∧
      ∃ e' : Expr, e'.bare = (Expr.call callee arguments).bare ∧ call n callee' c = .ok (e', c')

theorem readsCall_none : ReadsCall callee none := by
  rintro n callee' c c' hcallee ⟨⟨hopen, -⟩, ⟨hclose, -⟩, rfl⟩ hn
  obtain ⟨n, rfl⟩ := exists_succ n (by omega)
  refine ⟨hopen, _, ?_, call_none hopen hclose⟩
  exact congrArg (Expr.call · none) hcallee

theorem readsCall_some {a : Expr} (h : ReadsBack a) : ReadsCall callee (some a) := by
  rintro n callee' c c' hcallee ⟨⟨hopen, -⟩, hc⟩ hn
  have hsome : (optionTokens (some a)).length = a.tokens.length := rfl
  obtain ⟨m, hca, ⟨hclose, -⟩, rfl⟩ := Cursor.spells_append hc
  obtain ⟨n, rfl⟩ := exists_succ n (by omega)
  obtain ⟨a', ha', hrun⟩ := h.expression n c.next m hca (by rw [hclose]; rfl) (by rw [hclose]; rfl) (by omega)
  refine ⟨hopen, _, ?_, call_some hopen (h.not_closes hca) hrun hclose⟩
  exact (congrArg (Expr.call · _) hcallee).trans (congrArg (Expr.call _ <| some ·) ha')

theorem readsBack_call {arguments : Option Expr} (h : ReadsBack callee) (hbinds : Precedence.member ≤ callee.binds)
    (ha : ReadsCall callee arguments) :
    ReadsBack (.call callee arguments) := by
  obtain ⟨k, ks, htokens, hk, hbefore⟩ := h.head
  have hlen := h.length_pos
  have hnew : Precedence.new ≤ callee.binds := Nat.le_trans (by decide) hbinds
  have hchain : ReadsChain (.call callee arguments) := by
    intro n c c' hc hn
    simp only [Expr.tokens, List.length_append, List.length_cons, List.length_nil] at hn ⊢
    obtain ⟨m, hcallee, hrest⟩ := Cursor.spells_append hc
    obtain ⟨callee', n₁, hcallee', hn₁, hrun⟩ := h.chain hbinds n c m hcallee (by omega)
    obtain ⟨n₁, rfl⟩ := exists_succ n₁ (by omega)
    obtain ⟨hkind, e', he', hrun'⟩ := ha n₁ callee' m c' hcallee' hrest (by omega)
    exact ⟨e', n₁, he', by omega, hrun.trans (suffixes_call hkind hrun')⟩
  have hnewOperand (hless : callee.callless = true) : ReadsNew (.call callee arguments) := by
    intro n c c' _ hc _ hn
    simp only [Expr.tokens, List.length_append, List.length_cons, List.length_nil] at hn
    obtain ⟨m, hcallee, hrest⟩ := Cursor.spells_append hc
    obtain ⟨n, rfl⟩ := exists_succ n (by omega)
    obtain ⟨callee', n₁, hcallee', hn₁, hrun⟩ := h.base hnew hless n c.next m hcallee (.inl hbinds) (by omega)
    obtain ⟨hkind, e', he', hrun'⟩ := ha n callee' m c' hcallee' hrest (by omega)
    have hends : m.EndsAccesses := by rw [Cursor.EndsAccesses, hkind]; exact ⟨rfl, rfl⟩
    refine ⟨e', he', ?_⟩
    rw [newOperand_base (hrun.trans (accesses_ends hends (by omega))), hkind]
    exact hrun'
  exact hchain.readsBack (congrArg (· ++ _) htokens) hk (hbefore hnew) (Nat.le_refl _)
    (fun h => by cases h) hnewOperand

/-! ### New objects -/

theorem readsBack_new (h : ReadsBack e) (hfits : e.FitsNew) : ReadsBack (.new e) := by
  have hnew := h.new hfits
  have hlen := h.length_pos
  have hbinds {e' : Expr} (he' : e'.bare = e.bare) : (Expr.new e').binds = (Expr.new e).binds :=
    Expr.binds_eq (congrArg Expr.new he')
  have htokens : (Expr.new e).tokens = .word .newWord :: e.tokens := rfl
  have hbase : ReadsBase (.new e) := by
    intro n c c' hc hends hn
    rw [htokens] at hc hn
    rw [List.length_cons] at hn
    obtain ⟨e', he', hrun⟩ := hnew n c c' hc.1.1 hc.2 hends (by omega)
    have hbase : newBase n c = .ok (.new e', c') := by
      rw [newBase, atWord_run, hc.1.1]
      change (Expr.new <$> newOperand n) c = _
      rw [map_eq_pure_bind, bind_run hrun]
      rfl
    exact ⟨.new e', n, congrArg Expr.new he', Nat.le_add_right .., bind_run hbase⟩
  have hnewNew : ReadsNew (.new e) := hbase.new (tokens_pos htokens) (by decide : Precedence.new < Precedence.member)
  by_cases hmember : Precedence.member ≤ (Expr.new e).binds
  · have hchain : ReadsChain (.new e) := by
      intro n c c' hc hn
      rw [htokens] at hc hn ⊢
      rw [List.length_cons] at hn ⊢
      obtain ⟨n, rfl⟩ := exists_succ n (by omega)
      obtain ⟨e', he', hrun⟩ := hnew n c c' hc.1.1 hc.2 (.inl hmember) (by omega)
      refine ⟨.new e', n, congrArg Expr.new he', by omega, ?_⟩
      rw [leftHandSide_new hc.1.1 hrun, if_neg (Nat.not_lt.2 (hbinds he' ▸ hmember))]
    exact hchain.readsBack htokens rfl rfl hmember (fun _ => hbase) fun _ => hnewNew
  · -- Without arguments it is no chain, but still an operand.
    have hunary : ReadsUnary (.new e) := by
      intro n c c' hc hends hn
      rw [htokens] at hc hn
      rw [List.length_cons] at hn
      obtain ⟨n, rfl⟩ : ∃ m, n = m + 3 := Nat.exists_eq_add_of_le' (by omega)
      obtain ⟨e', he', hrun⟩ := hnew n c c' hc.1.1 hc.2 (.inr hends.1) (by omega)
      refine ⟨.new e', congrArg Expr.new he', ?_⟩
      rw [unary_updated (by rw [hc.1.1]; rfl)]
      refine updated_plain ?_ hends.2
      rw [leftHandSide_new hc.1.1 hrun, if_pos (Nat.not_le.1 (hbinds he' ▸ hmember))]
    exact {
      head := ⟨_, _, htokens, rfl, fun _ => rfl⟩
      chain := fun hge => absurd hge hmember
      base := fun _ _ => hbase
      new := fun _ => hnewNew
      unary := fun _ => hunary
      climb := fun _ => hunary.climb (tokens_pos htokens)
      expression := (hunary.climb (tokens_pos htokens)).expression (tokens_pos htokens)
        (Nat.le_trans (by decide) (new_le_binds e)) }

/-! ## Lists -/

theorem length_le_behindItem (hnil : items = [] → ks = []) : ks.length ≤ (behindItem items ks).length := by
  cases items with
  | nil => rw [hnil rfl]; exact Nat.zero_le _
  | cons => exact Nat.le_succ _

theorem closes_of_spells_behindItem (h : c.Spells (behindItem items ks) c') (hclose : c'.current.kind.closes = true) :
    c.current.kind.closes = true := by
  cases items with
  | nil =>
    cases h
    exact hclose
  | cons =>
    rw [h.1.1]
    rfl

theorem run_behindItem (p : Punctuator) (x : Parse β) (hnil : items = [] → ks = []) (hp : p ≠ .comma)
    (h : c.Spells (behindItem items ks) c') (hend : c'.current.kind = .mark p) :
    ∃ m, m.Spells ks c' ∧
      (if c.current.kind.isMark p then x c else (expectMark .comma >>= fun _ => x) c) = x m := by
  cases items with
  | nil =>
    cases h
    refine ⟨c, by rw [hnil rfl]; rfl, ?_⟩
    rw [if_pos (TokenKind.isMark_iff.2 hend)]
  | cons =>
    obtain ⟨⟨hcomma, -⟩, hks⟩ := h
    have hne : ¬c.current.kind.isMark p = true := by
      rw [TokenKind.isMark_iff, hcomma]
      exact fun heq => hp (TokenKind.mark.inj heq).symm
    exact ⟨c.next, hks, by rw [if_neg hne, bind_run (expectMark_run hcomma)]⟩

def ReadsElements (es : List (Option Expr)) : Prop :=
  ∀ n before c c', c.Spells (elementsTokens es) c' → c'.current.kind = .mark .rightBracket →
    10 * (elementsTokens es).length < n →
    ∃ es', elementsBare es' = elementsBare es ∧ elements n before c = .ok (before.toList ++ es', c')

def ReadsProperties (ps : List (String × Expr)) : Prop :=
  ∀ n before c c', c.Spells (propertiesTokens ps) c' → c'.current.kind = .mark .rightBrace →
    10 * (propertiesTokens ps).length < n →
    ∃ ps', propertiesBare ps' = propertiesBare ps ∧ properties n before c = .ok (before.toList ++ ps', c')

def ReadsItems (es : List Expr) : Prop :=
  ∀ n before c c', c.Spells (behindItem es (itemsTokens es)) c' → c'.current.kind.closes = true →
    c'.current.kind.isMark .comma = false → 10 * (itemsTokens es).length < n →
    ∃ es', itemsBare es' = itemsBare es ∧ commaList n true before c = .ok (.sequence (before.toList ++ es'), c')

theorem readsElements_nil : ReadsElements [] := by
  rintro n before c _ rfl hend hn
  obtain ⟨n, rfl⟩ := exists_succ n (by omega)
  exact ⟨[], rfl, by rw [elements_nil hend, List.append_nil]⟩

theorem readsElements_none (h : ReadsElements es) : ReadsElements (none :: es) := by
  intro n before c c' hc hend hn
  have hcons : (elementsTokens (none :: es)).length = (elementsTokens es).length + 1 := rfl
  obtain ⟨n, rfl⟩ := exists_succ n (by omega)
  obtain ⟨es', hes', hrun⟩ := h n (before.push none) c.next c' hc.2 hend (by omega)
  refine ⟨none :: es', congrArg (none :: ·) hes', ?_⟩
  rw [elements_hole hc.1.1, hrun, Array.toList_push, List.append_assoc, List.singleton_append]

theorem readsElements_some (he : ReadsBack e) (hbinds : Precedence.assignment ≤ e.binds) (h : ReadsElements es) :
    ReadsElements (some e :: es) := by
  intro n before c c' hc hend hn
  have hnil : es = [] → elementsTokens es = [] := by rintro rfl; rfl
  have hlen := he.length_pos
  have hrest := length_le_behindItem hnil
  have happend : (elementsTokens (some e :: es)).length = e.tokens.length + (behindItem es (elementsTokens es)).length :=
    List.length_append
  obtain ⟨m, hce, hcm⟩ := Cursor.spells_append hc
  obtain ⟨n, rfl⟩ := exists_succ n (by omega)
  have hclose := closes_of_spells_behindItem hcm (by rw [hend]; rfl)
  obtain ⟨e', he', hrun⟩ := (he.climb hbinds).closes hlen hbinds (n := n) hce hclose (by omega)
  obtain ⟨m', hm', hnext⟩ := run_behindItem .rightBracket (elements n (before.push (some e'))) hnil (by decide)
    hcm hend
  obtain ⟨es', hes', hrun'⟩ := h n (before.push (some e')) m' c' hm' hend (by omega)
  refine ⟨some e' :: es', (congrArg (some · :: _) he').trans (congrArg _ hes'), ?_⟩
  rw [elements_some (he.not_closes hce) hrun, hnext, hrun', Array.toList_push, List.append_assoc, List.singleton_append]

theorem readsProperties_nil : ReadsProperties [] := by
  rintro n before c _ rfl hend hn
  obtain ⟨n, rfl⟩ := exists_succ n (by omega)
  exact ⟨[], rfl, by rw [properties_nil hend, List.append_nil]⟩

theorem readsProperties_cons {key : String} {ps : List (String × Expr)} (he : ReadsBack e)
    (hbinds : Precedence.assignment ≤ e.binds) (h : ReadsProperties ps) : ReadsProperties ((key, e) :: ps) := by
  intro n before c c' hc hend hn
  have hnil : ps = [] → propertiesTokens ps = [] := by rintro rfl; rfl
  have hlen := he.length_pos
  have hrest := length_le_behindItem hnil
  have happend : (propertiesTokens ((key, e) :: ps)).length =
      (e.tokens ++ behindItem ps (propertiesTokens ps)).length + 2 := rfl
  rw [List.length_append] at happend
  obtain ⟨⟨hkey, -⟩, ⟨hcolon, -⟩, hc⟩ := hc
  obtain ⟨m, hce, hcm⟩ := Cursor.spells_append hc
  obtain ⟨n, rfl⟩ := exists_succ n (by omega)
  have hclose := closes_of_spells_behindItem hcm (by rw [hend]; rfl)
  obtain ⟨e', he', hrun⟩ := (he.climb hbinds).closes hlen hbinds (n := n) hce hclose (by omega)
  obtain ⟨m', hm', hnext⟩ := run_behindItem .rightBrace (properties n (before.push (key, e'))) hnil (by decide)
    hcm hend
  obtain ⟨ps', hps', hrun'⟩ := h n (before.push (key, e')) m' c' hm' hend (by omega)
  refine ⟨(key, e') :: ps', (congrArg (fun b => (key, b) :: _) he').trans (congrArg _ hps'), ?_⟩
  rw [properties_cons hkey hcolon hrun, hnext, hrun', Array.toList_push, List.append_assoc, List.singleton_append]

theorem readsItems_nil : ReadsItems [] := by
  rintro n before c _ rfl _ hcomma hn
  obtain ⟨n, rfl⟩ := exists_succ n (by omega)
  exact ⟨[], rfl, by rw [commaList_nil hcomma, List.append_nil]⟩

theorem readsItems_cons {es : List Expr} (he : ReadsBack e) (hbinds : Precedence.assignment ≤ e.binds)
    (h : ReadsItems es) : ReadsItems (e :: es) := by
  intro n before c c' hc hclose hend hn
  have hlen := he.length_pos
  have hrest : (itemsTokens es).length ≤ (behindItem es (itemsTokens es)).length :=
    length_le_behindItem (by rintro rfl; rfl)
  have happend : (itemsTokens (e :: es)).length = e.tokens.length + (behindItem es (itemsTokens es)).length :=
    List.length_append
  obtain ⟨⟨hcomma, -⟩, hc⟩ := hc
  obtain ⟨m, hce, hcm⟩ := Cursor.spells_append hc
  obtain ⟨n, rfl⟩ := exists_succ n (by omega)
  obtain ⟨e', he', hrun⟩ := (he.climb hbinds).closes hlen hbinds (n := n) hce
    (closes_of_spells_behindItem hcm hclose) (by omega)
  obtain ⟨es', hes', hrun'⟩ := h n (before.push e') m c' hcm hclose hend (by omega)
  refine ⟨e' :: es', (congrArg (· :: _) he').trans (congrArg _ hes'), ?_⟩
  rw [commaList_cons hcomma hrun, hrun', Array.toList_push, List.append_assoc, List.singleton_append]

theorem readsBack_sequence {es : List Expr} (he : ReadsBack e) (hbinds : Precedence.assignment ≤ e.binds)
    (h : ReadsItems es) (hes : es ≠ []) : ReadsBack (.sequence (e :: es)) := by
  obtain ⟨k, ks, htokens, hk, -⟩ := he.head
  have hlen := he.length_pos
  have hrest : (itemsTokens es).length ≤ (behindItem es (itemsTokens es)).length :=
    length_le_behindItem (by rintro rfl; rfl)
  have hexpression : ReadsExpression (.sequence (e :: es)) := by
    intro n c c' hc hclose hend hn
    have happend : (Expr.sequence (e :: es)).tokens.length = e.tokens.length + (behindItem es (itemsTokens es)).length :=
      List.length_append
    obtain ⟨m, hce, hcm⟩ := Cursor.spells_append hc
    obtain ⟨n, rfl⟩ := exists_succ n (by omega)
    have hcomma : m.current.kind.isMark .comma = true := by
      cases es with
      | nil => exact absurd rfl hes
      | cons => exact TokenKind.isMark_iff.2 hcm.1.1
    obtain ⟨e', he', hrun⟩ := (he.climb hbinds).closes hlen hbinds (n := n) hce
      (closes_of_spells_behindItem hcm hclose) (by omega)
    obtain ⟨es', hes', hrun'⟩ := h n #[e'] m c' hcm hclose hend (by omega)
    refine ⟨.sequence (e' :: es'), congrArg Expr.sequence ((congrArg (· :: _) he').trans (congrArg _ hes')), ?_⟩
    rw [Grammar.expression, bind_run hrun, atMark_run,
      hcomma]
    exact hrun'
  have hlt : (Expr.sequence (e :: es)).binds < Precedence.assignment := (by decide : Precedence.comma < _)
  exact {
    head := by
      refine ⟨k, ks ++ behindItem es (itemsTokens es), ?_, hk, fun hge => ?_⟩
      · exact congrArg (· ++ _) htokens
      · exact absurd_of_lt hlt (by decide) hge
    chain := fun hge => absurd_of_lt hlt (by decide) hge
    base := fun hge => absurd_of_lt hlt (by decide) hge
    new := fun hfits => absurd hfits (not_fitsNew (Nat.lt_of_lt_of_le hlt (by decide)))
    unary := fun hge => absurd_of_lt hlt (by decide) hge
    climb := fun hge => absurd_of_lt hlt (Nat.le_refl _) hge
    expression := hexpression }

/-! ## Operands -/

theorem readsBack_atom (htokens : e.tokens = [k])
    (hrun : ∀ n span newline later last, ∃ e' : Expr, e'.bare = e.bare ∧
      primary (n + 1) ⟨⟨k, span, newline⟩, later, last⟩ = .ok (e', Cursor.next ⟨⟨k, span, newline⟩, later, last⟩))
    (hk : k.closes = false) (hbefore : Operator.before? k = none) (hword : k.isWord .newWord = false)
    (hbinds : e.binds = Precedence.greatest) (hnew : (Expr.new e).binds = Precedence.new) :
    ReadsBack e := by
  refine ReadsPrimary.readsBack htokens hk ?_ hbefore hword (by rw [hbinds]; decide) (by rw [hnew]; decide)
  intro n c c' hc hn
  rw [htokens] at hc hn
  rw [List.length_singleton] at hn
  obtain ⟨⟨_, span, newline⟩, later, last⟩ := c
  obtain ⟨⟨rfl, -⟩, rfl⟩ := hc
  obtain ⟨n, rfl⟩ := exists_succ n (by omega)
  exact hrun n span newline later last

theorem readsBack_enclosed {first last : TokenKind} (htokens : e.tokens = first :: (ks ++ [last]))
    (hfirst : first.closes = false) (hbefore : Operator.before? first = none) (hword : first.isWord .newWord = false)
    (hbinds : e.binds = Precedence.greatest) (hnew : (Expr.new e).binds = Precedence.new)
    (hread : ∀ n c m, c.current.kind = first → c.next.Spells ks m → m.current.kind = last → 10 * ks.length ≤ n →
      ∃ e' : Expr, e'.bare = e.bare ∧ primary (n + 2) c = .ok (e', m.next)) : ReadsBack e := by
  refine ReadsPrimary.readsBack htokens hfirst ?_ hbefore hword (by rw [hbinds]; decide) (by rw [hnew]; decide)
  intro n c c' hc hn
  rw [htokens] at hc
  simp only [htokens, List.length_cons, List.length_append, List.length_nil] at hn
  obtain ⟨⟨hopen, -⟩, hc⟩ := hc
  obtain ⟨m, hce, ⟨hclose, -⟩, rfl⟩ := Cursor.spells_append hc
  obtain ⟨n, rfl⟩ : ∃ m, n = m + 2 := Nat.exists_eq_add_of_le' (by omega)
  exact hread n c m hopen hce hclose (by omega)

theorem readsBack_grouping (h : ReadsBack e) : ReadsBack (.grouping e) := by
  refine readsBack_enclosed rfl rfl rfl rfl rfl rfl fun n c m hopen hc hclose hn => ?_
  obtain ⟨e', he', hrun⟩ := h.expression n c.next m hc (by rw [hclose]; rfl) (by rw [hclose]; rfl) hn
  exact ⟨.grouping e', congrArg Expr.grouping he', primary_grouping hopen hrun hclose⟩

theorem readsBack_array (h : ReadsElements es) : ReadsBack (.array es) := by
  refine readsBack_enclosed rfl rfl rfl rfl rfl rfl fun n c m hopen hc hclose hn => ?_
  obtain ⟨es', hes', hrun⟩ := h (n + 1) #[] c.next m hc hclose (Nat.lt_succ_of_le hn)
  exact ⟨.array es', congrArg Expr.array hes', primary_array hopen hrun hclose⟩

theorem readsBack_object {ps : List (String × Expr)} (h : ReadsProperties ps) : ReadsBack (.object ps) := by
  refine readsBack_enclosed rfl rfl rfl rfl rfl rfl fun n c m hopen hc hclose hn => ?_
  obtain ⟨ps', hps', hrun⟩ := h (n + 1) #[] c.next m hc hclose (Nat.lt_succ_of_le hn)
  exact ⟨.object ps', congrArg Expr.object hps', primary_object hopen hrun hclose⟩

end Levels

/-! ## Every tree -/

section Trees

theorem readsBack_infix {l : Expr} {k : TokenKind} {ks : List TokenKind} {e : Expr} (h : ReadsClimb e)
    (hl : ReadsBack l) (htokens : e.tokens = l.tokens ++ k :: ks) (hbinds : Precedence.assignment ≤ e.binds)
    (hlt : e.binds < Precedence.unary) : ReadsBack e := by
  obtain ⟨k', ks', hl', hk, -⟩ := hl.head
  exact h.readsBack (by rw [htokens, hl', List.cons_append]) hk hbinds hlt

mutual

theorem readsBack : ∀ e : Expr, e.Respects → e.Holds (fun _ => False) → ReadsBack e
  | .number value, _, _ => readsBack_atom rfl (fun _ _ _ _ _ => ⟨.number value, rfl, rfl⟩) rfl rfl rfl rfl rfl
  | .string value, _, _ => readsBack_atom rfl (fun _ _ _ _ _ => ⟨.string value, rfl, rfl⟩) rfl rfl rfl rfl rfl
  | .boolean true, _, _ => readsBack_atom rfl (fun _ _ _ _ _ => ⟨.boolean true, rfl, rfl⟩) rfl rfl rfl rfl rfl
  | .boolean false, _, _ => readsBack_atom rfl (fun _ _ _ _ _ => ⟨.boolean false, rfl, rfl⟩) rfl rfl rfl rfl rfl
  | .null, _, _ => readsBack_atom rfl (fun _ _ _ _ _ => ⟨.null, rfl, rfl⟩) rfl rfl rfl rfl rfl
  | .identifier id, _, _ => readsBack_atom rfl (fun _ span _ _ _ => ⟨.identifier ⟨id.name, span⟩, rfl, rfl⟩) rfl rfl rfl rfl rfl
  | .this, _, _ => readsBack_atom rfl (fun _ _ _ _ _ => ⟨.this, rfl, rfl⟩) rfl rfl rfl rfl rfl
  | .array elements, h, hf => readsBack_array (readsElements elements h hf)
  | .object properties, h, hf => readsBack_object (readsProperties properties h hf)
  | .function _, _, hf => hf.elim
  | .grouping e, h, hf => readsBack_grouping (readsBack e h hf)
  | .unary op e, h, hf =>
    (readsUnary_unary (readsBack e h.2 hf) h.1).readsBack rfl (by cases op <;> rfl) (Nat.le_refl _)
      (by decide : Precedence.unary < Precedence.new)
  | .update op true e, h, hf =>
    (readsUnary_updateBefore (readsBack e h.2 hf) h.1).readsBack rfl (by cases op <;> rfl)
      (Nat.le_refl _) (by decide : Precedence.unary < Precedence.new)
  | .update op false e, h, hf => by
    have he := readsBack e h.2 hf
    obtain ⟨k, ks, htokens, hk, -⟩ := he.head
    exact (readsUnary_updateAfter he h.1).readsBack (congrArg (· ++ _) htokens) hk
      (by decide : Precedence.unary ≤ Precedence.update) (by decide : Precedence.update < Precedence.new)
  | .binary op l r, ⟨hl, hr, hlr, hrr⟩, hf =>
    have hpower := op.power_bounds
    readsBack_infix (readsClimb_binary (readsBack l hlr hf.1) (readsBack r hrr hf.2) hl hr) (readsBack l hlr hf.1)
      rfl (Nat.le_trans (by decide) (Nat.le_of_lt hpower.1)) hpower.2
  | .logical op l r, ⟨hl, hr, hlr, hrr⟩, hf =>
    have hpower := op.power_bounds
    readsBack_infix (readsClimb_logical (readsBack l hlr hf.1) (readsBack r hrr hf.2) hl hr) (readsBack l hlr hf.1)
      rfl (Nat.le_trans (by decide) (Nat.le_of_lt hpower.1)) hpower.2
  | .assignment _ l r, ⟨⟨hop, href, hr⟩, hlr, hrr⟩, hf =>
    readsBack_infix (readsClimb_assignment (readsBack l hlr hf.1) (readsBack r hrr hf.2) hop href hr)
      (readsBack l hlr hf.1) rfl (Nat.le_refl _) (by decide : Precedence.assignment < Precedence.unary)
  | .conditional test a b, ⟨⟨htest, ha, hb⟩, htr, har, hbr⟩, hf =>
    have ht := readsBack test htr hf.1
    readsBack_infix (readsClimb_conditional ht (readsBack a har hf.2.1) (readsBack b hbr hf.2.2) htest ha hb) ht
      rfl (by decide : Precedence.assignment ≤ Precedence.conditional)
      (by decide : Precedence.conditional < Precedence.unary)
  | .sequence [], h, _ => absurd h.1 (by decide)
  | .sequence (e :: es), ⟨hlen, he, hes⟩, hf =>
    readsBack_sequence (readsBack e he.2 hf.1) he.1 (readsItems es hes hf.2) (by
      rintro rfl
      exact absurd hlen (by decide : ¬2 ≤ 1))
  | .call callee arguments, ⟨hbinds, hcallee, ha⟩, hf =>
    readsBack_call (readsBack callee hcallee hf.1) hbinds (readsCall callee arguments ha hf.2)
  | .member e _, h, hf => readsBack_member (readsBack e h.2 hf) h.1
  | .index l r, ⟨hbinds, hl, hr⟩, hf => readsBack_index (readsBack l hl hf.1) hbinds (readsBack r hr hf.2)
  | .new e, h, hf => readsBack_new (readsBack e h.2 hf) h.1

theorem readsCall (callee : Expr) : ∀ arguments : Option Expr, optionRespects arguments →
    optionHolds (fun _ => False) arguments → ReadsCall callee arguments
  | none, _, _ => readsCall_none
  | some a, h, hf => readsCall_some (readsBack a h hf)

theorem readsElements : ∀ es : List (Option Expr), elementsRespect es → elementsHold (fun _ => False) es →
    ReadsElements es
  | [], _, _ => readsElements_nil
  | none :: es, h, hf => readsElements_none (readsElements es h hf.2)
  | some e :: es, h, hf => readsElements_some (readsBack e h.1.2 hf.1) h.1.1 (readsElements es h.2 hf.2)

theorem readsProperties : ∀ ps : List (String × Expr), propertiesRespect ps → propertiesHold (fun _ => False) ps →
    ReadsProperties ps
  | [], _, _ => readsProperties_nil
  | (_, e) :: ps, h, hf => readsProperties_cons (readsBack e h.1.2 hf.1) h.1.1 (readsProperties ps h.2 hf.2)

theorem readsItems : ∀ es : List Expr, itemsRespect es → itemsHold (fun _ => False) es → ReadsItems es
  | [], _, _ => readsItems_nil
  | e :: es, h, hf => readsItems_cons (readsBack e h.1.2 hf.1) h.1.1 (readsItems es h.2 hf.2)

end

end Trees

end Grammar

/-! ## Rows of tokens -/

theorem Cursor.spells_of_map {ks : List TokenKind} {c : Cursor}
    (hkinds : (c.current :: c.later).map Token.kind = ks ++ [TokenKind.eof])
    (hlines : ∀ t ∈ c.current :: c.later, (Operator.after? t.kind).isSome = true → t.newlineBefore = false) :
    ∃ c', c.Spells ks c' ∧ c'.current.kind = .eof ∧ c'.later = [] := by
  induction ks generalizing c with
  | nil =>
    obtain ⟨hkind, hlater⟩ := List.cons.inj hkinds
    exact ⟨c, rfl, hkind, List.map_eq_nil_iff.1 hlater⟩
  | cons k ks ih =>
    obtain ⟨current, later, last⟩ := c
    obtain ⟨hkind, hlater⟩ := List.cons.inj hkinds
    cases later with
    | nil => cases ks <;> cases hlater
    | cons t ts =>
      obtain ⟨c', hspells, hend⟩ := ih (c := ⟨t, ts, current.span⟩) hlater fun u hu => hlines u (.tail _ hu)
      exact ⟨c', ⟨⟨hkind, fun h => hlines current (.head _) (hkind ▸ h)⟩, hspells⟩, hend⟩

/-- A tree without functions that respects the operator table is what its own
tokens are read as, to the last of them and up to spans; and whatever is read
respects the table. -/
theorem ofTokens_tokens :
    (∀ e : Expr, e.Respects → e.Holds (fun _ => False) → ∀ ts : List Token,
      ts.map Token.kind = e.tokens ++ [.eof] →
      (∀ t ∈ ts, (Operator.after? t.kind).isSome = true → t.newlineBefore = false) →
      ∃ e' c, Expr.ofTokens ts = .ok (e', c) ∧ e'.bare = e.bare ∧ c.current.kind = .eof ∧ c.later = []) ∧
    ∀ ts e c, Expr.ofTokens ts = .ok (e, c) → e.Respects := by
  refine ⟨fun e hrespects hfree ts hkinds hlines => ?_, fun ts e c h => ?_⟩
  · cases ts with
    | nil => cases htokens : e.tokens <;> rw [htokens] at hkinds <;> cases hkinds
    | cons t ts =>
      obtain ⟨c', hspells, heof, hlater⟩ := Cursor.spells_of_map (c := Cursor.ofTokens (t :: ts)) hkinds hlines
      have hlen : ts.length = e.tokens.length := by
        have := congrArg List.length hkinds
        rw [List.length_map, List.length_append] at this
        exact Nat.succ.inj this
      obtain ⟨e', he', hrun⟩ := (Grammar.readsBack e hrespects hfree).expression (Cursor.ofTokens (t :: ts)).fuel
        (Cursor.ofTokens (t :: ts)) c' hspells (by rw [heof]; rfl) (by rw [heof]; rfl) (by
          change _ ≤ 10 * (ts.length + 1)
          omega)
      exact ⟨e', c', hrun, he', heof, hlater⟩
  · exact (Grammar.reads _).value true _ e c h

/-- The tree of `new a.b(null).if = x ? -y++ * [, this] : (x = y, x in y)`. -/
def mixed : Expr :=
  let name (text : String) : Expr := .identifier ⟨text, ⟨0, 0⟩⟩
  .assignment none (.member (.new (.call (.member (name "a") ⟨"b", ⟨0, 0⟩⟩) (some .null))) ⟨"if", ⟨0, 0⟩⟩)
    (.conditional (name "x")
      (.binary .multiply (.unary .minus (.update .increment false (name "y"))) (.array [none, some .this]))
      (.grouping (.sequence [.assignment none (name "x") (name "y"), .binary .isIn (name "x") (name "y")])))

def mixedTokens : List Token := (mixed.tokens ++ [TokenKind.eof]).map fun k => ⟨k, ⟨0, 0⟩, false⟩

theorem ofTokens_mixed :
    (mixed.Respects ∧ mixed.Holds fun _ => False) ∧
      ∃ e' c, Expr.ofTokens mixedTokens = .ok (e', c) ∧ e'.bare = mixed.bare ∧ c.current.kind = .eof ∧ c.later = [] ∧
        e'.Respects := by
  have hrespects : mixed.Respects := by
    simp only [mixed, Expr.Respects, Expr.FitsNew, Expr.binds, elementsRespect, itemsRespect, optionRespects]
    decide
  have hfree : mixed.Holds fun _ => False := by
    simp only [mixed, Expr.Holds, elementsHold, itemsHold, optionHolds, and_self]
  have hkinds : mixedTokens.map Token.kind = mixed.tokens ++ [TokenKind.eof] := by
    rw [mixedTokens, List.map_map]
    exact List.map_id _
  have hlines : ∀ t ∈ mixedTokens, (Operator.after? t.kind).isSome = true → t.newlineBefore = false := by
    intro t ht _
    obtain ⟨k, -, rfl⟩ := List.mem_map.1 ht
    rfl
  obtain ⟨e', c, hrun, he', hend⟩ := ofTokens_tokens.1 mixed hrespects hfree mixedTokens hkinds hlines
  exact ⟨⟨hrespects, hfree⟩, e', c, hrun, he', hend.1, hend.2, ofTokens_tokens.2 _ _ _ hrun⟩

end ScriptEngine
