/-
Expressions as tokens. Parentheses are written at groupings alone, so it is for
the reader to group operands the way they were. Then the cursor along written
tokens, and what one step of each function of the grammar does there.
-/
import ScriptEngine.Proofs.Tree.Parsed

namespace ScriptEngine

/-! ## Writing -/

def UnaryOp.token : UnaryOp → TokenKind
  | .minus => .mark .minus
  | .plus => .mark .plus
  | .logicalNot => .mark .bang
  | .bitwiseNot => .mark .tilde
  | .typeof => .word .typeofWord
  | .void => .word .voidWord
  | .delete => .word .deleteWord

def UpdateOp.token : UpdateOp → TokenKind
  | .increment => .mark .plusPlus
  | .decrement => .mark .minusMinus

def BinaryOp.token : BinaryOp → TokenKind
  | .add => .mark .plus
  | .subtract => .mark .minus
  | .multiply => .mark .star
  | .divide => .mark .slash
  | .modulo => .mark .percent
  | .equal => .mark .equalEqual
  | .notEqual => .mark .notEqual
  | .strictEqual => .mark .strictEqual
  | .strictNotEqual => .mark .strictNotEqual
  | .lessThan => .mark .lessThan
  | .lessThanEqual => .mark .lessThanEqual
  | .greaterThan => .mark .greaterThan
  | .greaterThanEqual => .mark .greaterThanEqual
  | .bitwiseAnd => .mark .ampersand
  | .bitwiseOr => .mark .pipe
  | .bitwiseXor => .mark .caret
  | .leftShift => .mark .leftShift
  | .rightShift => .mark .rightShift
  | .unsignedRightShift => .mark .unsignedRightShift
  | .isIn => .word .inWord
  | .instanceOf => .word .instanceofWord

def LogicalOp.token : LogicalOp → TokenKind
  | .and => .mark .ampersandAmpersand
  | .or => .mark .pipePipe

def assignmentToken (op : Option BinaryOp) : TokenKind := .mark ((assignmentMark? op).getD .equal)

def nameToken (name : String) : TokenKind :=
  match ReservedWord.ofText? name with
  | some w => .word w
  | none => .identifier name

/-- The tokens behind an item, which a comma divides from the next. -/
def behindItem (items : List α) (ks : List TokenKind) : List TokenKind :=
  if items.isEmpty then [] else .mark .comma :: ks

mutual

def Expr.tokens : Expr → List TokenKind
  | .number value => [.number value]
  | .string value => [.string value]
  | .boolean value => [.word (if value then .trueWord else .falseWord)]
  | .null => [.word .nullWord]
  | .identifier id => [.identifier id.name]
  | .this => [.word .thisWord]
  | .array elements => .mark .leftBracket :: (elementsTokens elements ++ [.mark .rightBracket])
  | .object properties => .mark .leftBrace :: (propertiesTokens properties ++ [.mark .rightBrace])
  | .function _ => []
  | .grouping e => .mark .leftParen :: (e.tokens ++ [.mark .rightParen])
  | .unary op e => op.token :: e.tokens
  | .update op true e => op.token :: e.tokens
  | .update op false e => e.tokens ++ [op.token]
  | .binary op l r => l.tokens ++ op.token :: r.tokens
  | .logical op l r => l.tokens ++ op.token :: r.tokens
  | .assignment op l r => l.tokens ++ assignmentToken op :: r.tokens
  | .conditional test a b => test.tokens ++ .mark .question :: (a.tokens ++ .mark .colon :: b.tokens)
  | .sequence items => itemsTokens items
  | .call callee arguments => callee.tokens ++ .mark .leftParen :: (optionTokens arguments ++ [.mark .rightParen])
  | .member e property => e.tokens ++ [.mark .dot, nameToken property.name]
  | .index l r => l.tokens ++ .mark .leftBracket :: (r.tokens ++ [.mark .rightBracket])
  | .new e => .word .newWord :: e.tokens

def optionTokens : Option Expr → List TokenKind
  | none => []
  | some e => e.tokens

def elementsTokens : List (Option Expr) → List TokenKind
  | [] => []
  | none :: es => .mark .comma :: elementsTokens es
  | some e :: es => e.tokens ++ behindItem es (elementsTokens es)

def propertiesTokens : List (String × Expr) → List TokenKind
  | [] => []
  | (key, e) :: ps => .string key :: .mark .colon :: (e.tokens ++ behindItem ps (propertiesTokens ps))

def itemsTokens : List Expr → List TokenKind
  | [] => []
  | e :: es => e.tokens ++ behindItem es (itemsTokens es)

end

/-! ## Trees up to spans -/

def Identifier.bare (id : Identifier) : Identifier := ⟨id.name, ⟨0, 0⟩⟩

mutual

def Expr.bare : Expr → Expr
  | .number value => .number value
  | .string value => .string value
  | .boolean value => .boolean value
  | .null => .null
  | .identifier id => .identifier id.bare
  | .this => .this
  | .array elements => .array (elementsBare elements)
  | .object properties => .object (propertiesBare properties)
  | .function f => .function f
  | .grouping e => .grouping e.bare
  | .unary op e => .unary op e.bare
  | .update op before e => .update op before e.bare
  | .binary op l r => .binary op l.bare r.bare
  | .logical op l r => .logical op l.bare r.bare
  | .assignment op l r => .assignment op l.bare r.bare
  | .conditional test a b => .conditional test.bare a.bare b.bare
  | .sequence items => .sequence (itemsBare items)
  | .call callee arguments => .call callee.bare (optionBare arguments)
  | .member e property => .member e.bare property.bare
  | .index l r => .index l.bare r.bare
  | .new e => .new e.bare

def optionBare : Option Expr → Option Expr
  | none => none
  | some e => some e.bare

def elementsBare : List (Option Expr) → List (Option Expr)
  | [] => []
  | e :: es => optionBare e :: elementsBare es

def propertiesBare : List (String × Expr) → List (String × Expr)
  | [] => []
  | (key, e) :: ps => (key, e.bare) :: propertiesBare ps

def itemsBare : List Expr → List Expr
  | [] => []
  | e :: es => e.bare :: itemsBare es

end

theorem Expr.binds_bare (e : Expr) : e.bare.binds = e.binds := by
  cases e with
  | update op before e => cases before <;> rfl
  | new e => cases e <;> rfl
  | _ => rfl

theorem Expr.isReference_bare : ∀ e : Expr, e.bare.isReference = e.isReference
  | .grouping e => Expr.isReference_bare e
  | .number _ | .string _ | .boolean _ | .null | .identifier _ | .this | .array _ | .object _ | .function _
  | .unary .. | .update .. | .binary .. | .logical .. | .assignment .. | .conditional .. | .sequence _ | .call ..
  | .member .. | .index .. | .new _ => rfl

theorem Expr.binds_eq {a b : Expr} (h : a.bare = b.bare) : a.binds = b.binds := by
  rw [← a.binds_bare, h, b.binds_bare]

theorem Expr.isReference_eq {a b : Expr} (h : a.bare = b.bare) : a.isReference = b.isReference := by
  rw [← a.isReference_bare, h, b.isReference_bare]

/-! ## Tokens of operators -/

theorem UnaryOp.before?_token (op : UnaryOp) : Operator.before? op.token = some (.unary op) := by
  cases op <;> rfl

theorem UpdateOp.before?_token (op : UpdateOp) : Operator.before? op.token = some (.updateBefore op) := by
  cases op <;> rfl

theorem UpdateOp.after?_token (op : UpdateOp) : Operator.after? op.token = some (.updateAfter op) := by
  cases op <;> rfl

theorem BinaryOp.between?_token (op : BinaryOp) : Operator.between? op.token = some (.binary op op.power) := by
  cases op <;> rfl

theorem LogicalOp.between?_token (op : LogicalOp) : Operator.between? op.token = some (.logical op op.power) := by
  cases op <;> rfl

theorem between?_assignmentToken {op : Option BinaryOp} (h : (assignmentMark? op).isSome = true) :
    Operator.between? (assignmentToken op) = some (.assignment op) := by
  cases op with
  | none => rfl
  | some o => cases o <;> first | rfl | cases h

theorem requireReference_bind {target e : Expr} {use : TargetUse} (h : target.isReference = true) :
    (requireReference target use >>= fun _ => Except.ok e) = .ok e := by
  rw [requireReference, h]
  rfl

/-! ## Tokens at a cursor -/

def TokenKind.closes : TokenKind → Bool
  | .mark .comma | .mark .rightParen | .mark .rightBracket | .mark .rightBrace | .mark .colon | .eof => true
  | _ => false

namespace Cursor

variable {c : Cursor} {op : Operator}

/-- Reading tokens of these kinds leads from one cursor to another. No line
begins with `++` or `--`. -/
def Spells : Cursor → List TokenKind → Cursor → Prop
  | c, [], c' => c = c'
  | c, k :: ks, c' =>
    (c.current.kind = k ∧ ((Operator.after? k).isSome = true → c.current.newlineBefore = false)) ∧ c.next.Spells ks c'

theorem spells_append {ks ls : List TokenKind} {c' : Cursor} (h : c.Spells (ks ++ ls) c') :
    ∃ m, c.Spells ks m ∧ m.Spells ls c' := by
  induction ks generalizing c with
  | nil => exact ⟨c, rfl, h⟩
  | cons k ks ih =>
    obtain ⟨m, hks, hls⟩ := ih h.2
    exact ⟨m, ⟨h.1, hks⟩, hls⟩

/-- Neither an access, nor a call, nor an update behind its operand follows. -/
def Unsuffixed (c : Cursor) : Prop := c.EndsSuffixes ∧ Operator.after? c.current.kind = none

theorem unsuffixed_of_between? (h : Operator.between? c.current.kind = some op) : c.Unsuffixed := by
  rw [Unsuffixed, EndsSuffixes, EndsAccesses]
  generalize c.current.kind = k at h ⊢
  cases k with
  | mark p => cases p <;> first | cases h; done | exact ⟨⟨⟨rfl, rfl⟩, rfl⟩, rfl⟩
  | _ => exact ⟨⟨⟨rfl, rfl⟩, rfl⟩, rfl⟩

theorem unsuffixed_of_closes (h : c.current.kind.closes = true) : c.Unsuffixed := by
  rw [Unsuffixed, EndsSuffixes, EndsAccesses]
  generalize c.current.kind = k at h ⊢
  cases k with
  | mark p => cases p <;> first | cases h; done | exact ⟨⟨⟨rfl, rfl⟩, rfl⟩, rfl⟩
  | _ => exact ⟨⟨⟨rfl, rfl⟩, rfl⟩, rfl⟩

theorem stops_of_closes (h : c.current.kind.closes = true) : c.Stops true Precedence.assignment := by
  intro op hop
  have hbetween := (Option.filter_eq_some_iff.1 hop).1
  generalize c.current.kind = k at h hbetween
  cases k with
  | mark p =>
    cases p <;> first
      | cases h; done
      | cases hbetween; done
      | (cases hbetween; decide)
  | word w => cases h
  | _ => cases hbetween

theorem operator?_of_between? (h : Operator.between? c.current.kind = some op) : c.operator? true = some op := by
  rw [operator?, h]
  rfl

theorem takes_of_between? {left : Expr} (h : Operator.between? c.current.kind = some op)
    (hle : op.primary ≤ left.binds) (hlt : Precedence.conditional < left.binds) :
    c.Takes true left := by
  intro op' hop
  cases (operator?_of_between? h).symm.trans hop
  exact ⟨hle, .inl hlt⟩

end Cursor

namespace Parse

variable {c : Cursor}

theorem bind_run {x : Parse α} {f : α → Parse β} {m : Cursor} {a : α} (h : x c = .ok (a, m)) : (x >>= f) c = f a m := by
  change (x c >>= fun p => f p.1 p.2) = _
  rw [h]
  rfl

theorem kind_run {f : TokenKind → Parse α} : (kind >>= f) c = f c.current.kind c := rfl

theorem token_run {f : Token → Parse α} : (token >>= f) c = f c.current c := rfl

theorem advance_run {f : Unit → Parse α} : (advance >>= f) c = f () c.next := rfl

theorem atMark_run {p : Punctuator} {f : Bool → Parse α} : (atMark p >>= f) c = f (c.current.kind.isMark p) c := rfl

theorem atWord_run {w : ReservedWord} {f : Bool → Parse α} : (atWord w >>= f) c = f (c.current.kind.isWord w) c := rfl

theorem expectMark_run {p : Punctuator} (h : c.current.kind = .mark p) : expectMark p c = .ok ((), c.next) := by
  have hat : c.current.kind.isMark p = true := TokenKind.isMark_iff.2 h
  change (if c.current.kind.isMark p = true then advance else _) c = _
  rw [if_pos hat]
  rfl

theorem build_run {op : Operator} {operands : List Expr} {e : Expr} (h : op.build operands = .ok e) :
    build op operands c = .ok (e, c) := by
  change (op.build operands >>= fun e => Except.ok (e, c)) = _
  rw [h]
  rfl

end Parse

namespace Grammar

open Parse

/-! ## One step of each function -/

section Steps

variable {n least : Nat} {c m m' : Cursor} {e e' a b left : Expr} {op : Operator}
variable {before : Array (Option Expr)}

theorem climbFrom_stops (h : c.Stops true least) (hn : 0 < n) : climbFrom n true least e c = .ok (e, c) := by
  obtain ⟨n, rfl⟩ := Nat.exists_eq_add_one.2 hn
  rw [climbFrom, kind_run]
  cases hk : Operator.between? c.current.kind with
  | none => rfl
  | some op =>
    have hlt := h op (Cursor.operator?_of_between? hk)
    simp only [decide_eq_true hlt, Bool.true_or, if_true]
    rfl

theorem climbFrom_between (hk : Operator.between? c.current.kind = some op) (hle : least ≤ op.primary)
    (hop : op.kind ≠ .conditional) (hr : climb n true op.secondary c.next = .ok (b, m))
    (hb : op.build [left, b] = .ok e) : climbFrom (n + 1) true least left c = climbFrom n true least e m := by
  have hge : decide (op.primary < least) = false := decide_eq_false (Nat.not_lt.2 hle)
  have hcond : (op.kind == .conditional) = false := beq_eq_false_iff_ne.2 hop
  rw [climbFrom, kind_run, hk]
  simp only [hge, hcond, Bool.not_true, Bool.false_and, Bool.false_or, Bool.false_eq_true, if_false]
  rw [advance_run, bind_run hr, bind_run (build_run hb)]

theorem climbFrom_conditional (hk : c.current.kind = .mark .question) (hle : least ≤ Precedence.conditional)
    (ha : climb n true Precedence.assignment c.next = .ok (a, m)) (hm : m.current.kind = .mark .colon)
    (hb : climb n true Precedence.assignment m.next = .ok (b, m')) :
    climbFrom (n + 1) true least left c = climbFrom n true least (.conditional left a b) m' := by
  have hge : decide (Operator.conditional.primary < least) = false := decide_eq_false (Nat.not_lt.2 hle)
  have hop : Operator.between? c.current.kind = some .conditional := by rw [hk]; rfl
  have hcond : (Operator.conditional.kind == .conditional) = true := rfl
  rw [climbFrom, kind_run, hop]
  simp only [hge, hcond, Bool.not_true, Bool.false_and, Bool.false_or, Bool.false_eq_true, if_false, if_true]
  refine advance_run.trans ((bind_run ha).trans ?_)
  exact (bind_run (expectMark_run hm)).trans ((bind_run hb).trans (bind_run (build_run rfl)))

theorem unary_before (hk : Operator.before? c.current.kind = some op) (hu : unary n c.next = .ok (e, m))
    (hb : op.build [e] = .ok e') : unary (n + 1) c = .ok (e', m) := by
  rw [unary, kind_run, hk]
  exact advance_run.trans ((bind_run hu).trans (build_run hb))

theorem unary_updated (hk : Operator.before? c.current.kind = none) : unary (n + 1) c = updated n c := by
  rw [unary, kind_run, hk]

theorem updated_plain (hl : leftHandSide n c = .ok (e, m)) (hk : Operator.after? m.current.kind = none) :
    updated (n + 1) c = .ok (e, m) := by
  rw [updated, bind_run hl, token_run, hk]
  rfl

theorem updated_after (hl : leftHandSide n c = .ok (e, m)) (hk : Operator.after? m.current.kind = some op)
    (hline : m.current.newlineBefore = false) (hb : op.build [e] = .ok e') : updated (n + 1) c = .ok (e', m.next) := by
  rw [updated, bind_run hl, token_run, hk, hline]
  exact advance_run.trans (build_run hb)

theorem leftHandSide_primary (hk : c.current.kind.isWord .newWord = false) (hp : primary n c = .ok (e, m)) :
    leftHandSide (n + 1) c = suffixes n e m := by
  rw [leftHandSide, atWord_run, hk]
  exact bind_run hp

theorem leftHandSide_new (hk : c.current.kind = .word .newWord) (ho : newOperand n c = .ok (e, m)) :
    leftHandSide (n + 1) c =
      if (Expr.new e).binds < Precedence.member then .ok (.new e, m) else suffixes n (.new e) m := by
  rw [leftHandSide, atWord_run, hk]
  refine (bind_run ho).trans ?_
  change (if (Expr.new e).binds < Precedence.member then _ else _ : Parse Expr) m = _
  split <;> rfl

theorem suffixes_access (hk : c.current.kind = .mark .dot ∨ c.current.kind = .mark .leftBracket)
    (ha : access n left c = .ok (e, m)) : suffixes (n + 1) left c = suffixes n e m := by
  rw [suffixes, kind_run]
  rcases hk with hk | hk <;> rw [hk] <;> exact bind_run ha

theorem suffixes_call (hk : c.current.kind = .mark .leftParen) (ha : call n left c = .ok (e, m)) :
    suffixes (n + 1) left c = suffixes n e m := by
  rw [suffixes, kind_run, hk]
  exact bind_run ha

theorem suffixes_ends (h : c.EndsSuffixes) (hn : 0 < n) : suffixes n left c = .ok (left, c) := by
  obtain ⟨n, rfl⟩ := Nat.exists_eq_add_one.2 hn
  obtain ⟨⟨hdot, hbracket⟩, hparen⟩ := h
  rw [suffixes, kind_run]
  generalize c.current.kind = k at hdot hbracket hparen ⊢
  cases k with
  | mark p => cases p <;> first | cases hdot; done | cases hbracket; done | cases hparen; done | rfl
  | _ => rfl

theorem accesses_access (hk : c.current.kind = .mark .dot ∨ c.current.kind = .mark .leftBracket)
    (ha : access n left c = .ok (e, m)) : accesses (n + 1) left c = accesses n e m := by
  rw [accesses, kind_run]
  rcases hk with hk | hk <;> rw [hk] <;> exact bind_run ha

theorem accesses_ends (h : c.EndsAccesses) (hn : 0 < n) : accesses n left c = .ok (left, c) := by
  obtain ⟨n, rfl⟩ := Nat.exists_eq_add_one.2 hn
  obtain ⟨hdot, hbracket⟩ := h
  rw [accesses, kind_run]
  generalize c.current.kind = k at hdot hbracket ⊢
  cases k with
  | mark p => cases p <;> first | cases hdot; done | cases hbracket; done | rfl
  | _ => rfl

def newBase (n : Nat) : Parse Expr := do
  if ← atWord .newWord then Expr.new <$> newOperand n else primary n

theorem newOperand_base (hb : (newBase n >>= accesses n) c.next = .ok (e, m)) :
    newOperand (n + 1) c = if m.current.kind.isMark .leftParen then call n e m else .ok (e, m) := by
  have hrest : newOperand (n + 1) c = ((newBase n >>= accesses n) >>= fun target => do
      if ← atMark .leftParen then call n target else return target) c.next := by
    rw [newOperand, newBase, advance_run, bind_assoc, bind_assoc]
    rw [atWord_run,
      atWord_run]
    cases c.next.current.kind.isWord .newWord <;> simp
  rw [hrest, bind_run hb, atMark_run]
  split <;> rfl

theorem access_member {name : String} (hk : c.current.kind = .mark .dot)
    (hname : c.next.current.kind = nameToken name) :
    ∃ id : Identifier, id.name = name ∧ access (n + 1) left c = .ok (.member left id, c.next.next) := by
  obtain ⟨id, hid, hrun⟩ : ∃ id : Identifier, id.name = name ∧ propertyName c.next = .ok (id, c.next.next) := by
    rw [propertyName, token_run, hname, nameToken]
    cases hw : ReservedWord.ofText? name with
    | some w => exact ⟨_, by simpa using List.find?_some hw, rfl⟩
    | none =>
      refine ⟨⟨name, c.next.current.span⟩, rfl, ?_⟩
      have hname' : c.next.current.kind = .identifier name := by rw [hname, nameToken, hw]
      change identifier c.next = _
      rw [identifier, token_run, hname']
      rfl
  refine ⟨id, hid, ?_⟩
  rw [access, atMark_run, hk]
  exact advance_run.trans ((bind_run hrun).trans (build_run rfl))

theorem access_index (hk : c.current.kind = .mark .leftBracket) (he : expression n true c.next = .ok (e, m))
    (hm : m.current.kind = .mark .rightBracket) : access (n + 1) left c = .ok (.index left e, m.next) := by
  have hrest := (bind_run (f := fun _ => build Operator.index [left, e]) (expectMark_run hm)).trans (build_run rfl)
  rw [access, atMark_run]
  have hdot : c.current.kind.isMark .dot = false := by rw [hk]; rfl
  rw [hdot]
  exact (bind_run (expectMark_run hk)).trans ((bind_run he).trans hrest)

theorem call_none (hk : c.current.kind = .mark .leftParen) (hnext : c.next.current.kind = .mark .rightParen) :
    call (n + 1) left c = .ok (.call left none, c.next.next) := by
  rw [call, bind_run (expectMark_run hk),
    atMark_run, hnext]
  exact advance_run.trans (build_run rfl)

theorem call_some (hk : c.current.kind = .mark .leftParen) (hnext : c.next.current.kind.closes = false)
    (he : expression n true c.next = .ok (e, m)) (hm : m.current.kind = .mark .rightParen) :
    call (n + 1) left c = .ok (.call left (some e), m.next) := by
  have hparen : c.next.current.kind.isMark .rightParen = false := by
    cases hat : c.next.current.kind.isMark .rightParen with
    | false => rfl
    | true =>
      rw [TokenKind.isMark_iff.1 hat] at hnext
      cases hnext
  rw [call, bind_run (expectMark_run hk),
    atMark_run, hparen]
  exact (bind_run he).trans ((bind_run (expectMark_run hm)).trans (build_run rfl))

theorem primary_grouping (hk : c.current.kind = .mark .leftParen) (he : expression n true c.next = .ok (e, m))
    (hm : m.current.kind = .mark .rightParen) : primary (n + 2) c = .ok (.grouping e, m.next) := by
  have hparens : parenthesized (n + 1) c = .ok (e, m.next) := by
    rw [parenthesized]
    exact (bind_run (expectMark_run hk)).trans ((bind_run he).trans (bind_run (expectMark_run hm)))
  rw [primary, token_run, hk]
  exact (bind_run hparens).trans (build_run rfl)

theorem primary_array {items : List (Option Expr)} (hk : c.current.kind = .mark .leftBracket)
    (hi : elements n #[] c.next = .ok (items, m)) (hm : m.current.kind = .mark .rightBracket) :
    primary (n + 1) c = .ok (.array items, m.next) := by
  rw [primary, token_run, hk]
  exact advance_run.trans ((bind_run hi).trans (bind_run (expectMark_run hm)))

theorem primary_object {ps : List (String × Expr)} (hk : c.current.kind = .mark .leftBrace)
    (hp : properties n #[] c.next = .ok (ps, m)) (hm : m.current.kind = .mark .rightBrace) :
    primary (n + 1) c = .ok (.object ps, m.next) := by
  rw [primary, token_run, hk]
  exact advance_run.trans ((bind_run hp).trans (bind_run (expectMark_run hm)))

theorem elements_nil (hk : c.current.kind = .mark .rightBracket) : elements (n + 1) before c = .ok (before.toList, c) := by
  rw [elements, kind_run, hk]
  rfl

theorem elements_hole (hk : c.current.kind = .mark .comma) :
    elements (n + 1) before c = elements n (before.push none) c.next := by
  rw [elements, kind_run, hk]
  exact advance_run

theorem not_closing {k : TokenKind} (h : k.closes = false) :
    k.isMark .rightBracket = false ∧ k.isEof = false ∧ k.isMark .comma = false := by
  cases k with
  | mark p => cases p <;> first | cases h; done | exact ⟨rfl, rfl, rfl⟩
  | eof => cases h
  | _ => exact ⟨rfl, rfl, rfl⟩

theorem elements_some (hk : c.current.kind.closes = false) (he : climb n true Precedence.assignment c = .ok (e, m)) :
    elements (n + 1) before c =
      if m.current.kind.isMark .rightBracket then elements n (before.push (some e)) m
      else (expectMark .comma >>= fun _ => elements n (before.push (some e))) m := by
  obtain ⟨hbracket, heof, hcomma⟩ := not_closing hk
  rw [elements, kind_run, hbracket, heof, hcomma]
  refine (bind_run he).trans ?_
  rw [atMark_run]
  split <;> rfl

theorem properties_nil {before : Array (String × Expr)} (hk : c.current.kind = .mark .rightBrace) :
    properties (n + 1) before c = .ok (before.toList, c) := by
  rw [properties, kind_run, hk]
  rfl

theorem properties_cons {before : Array (String × Expr)} {key : String} (hk : c.current.kind = .string key)
    (hcolon : c.next.current.kind = .mark .colon)
    (he : climb n true Precedence.assignment c.next.next = .ok (e, m)) :
    properties (n + 1) before c =
      if m.current.kind.isMark .rightBrace then properties n (before.push (key, e)) m
      else (expectMark .comma >>= fun _ => properties n (before.push (key, e))) m := by
  rw [properties, kind_run, hk]
  refine advance_run.trans ?_
  refine (bind_run (rfl : (pure key : Parse String) c.next = .ok (key, c.next))).trans ?_
  refine (bind_run (expectMark_run hcolon)).trans ((bind_run he).trans ?_)
  rw [atMark_run]
  split <;> rfl

theorem commaList_nil {before : Array Expr} (hk : c.current.kind.isMark .comma = false) :
    commaList (n + 1) true before c = .ok (.sequence before.toList, c) := by
  rw [commaList, atMark_run, hk]
  rfl

theorem commaList_cons {before : Array Expr} (hk : c.current.kind = .mark .comma)
    (he : climb n true Precedence.assignment c.next = .ok (e, m)) :
    commaList (n + 1) true before c = commaList n true (before.push e) m := by
  rw [commaList, atMark_run, hk]
  exact advance_run.trans (bind_run he)

end Steps

end Grammar

end ScriptEngine
