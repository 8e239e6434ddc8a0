/-
Filling an operator. In whatever order operands are given and taken back and
the second token is seen, an operator holds no more operands than it counts, and
those in the order in which they came. `finish` checks the count before it
builds, so building never runs out of operands. Main statement: `fill_sound`.
-/
import ScriptEngine.Proofs.Tree.Respects

namespace ScriptEngine

/-! ## Operators -/

/-- The operators that can be named: one for each form of expression, and those that tokens stand for. -/
inductive Operator.Listed : Operator → Prop
  | grouping : Listed .grouping
  | call (hasArguments : Bool) : Listed (.call hasArguments)
  | member : Listed .member
  | index : Listed .index
  | new : Listed .new
  | conditional : Listed .conditional
  | unary (o : UnaryOp) : Listed (.unary o)
  | updateBefore (o : UpdateOp) : Listed (.updateBefore o)
  | updateAfter (o : UpdateOp) : Listed (.updateAfter o)
  | between {kind : TokenKind} {op : Operator} : between? kind = some op → Listed op
  | before {kind : TokenKind} {op : Operator} : before? kind = some op → Listed op
  | after {kind : TokenKind} {op : Operator} : after? kind = some op → Listed op

/-- How many operands an expression of this kind is built from. -/
def OperatorKind.takes : OperatorKind → Nat → Bool
  | .call, n => n == 1 || n == 2
  | .grouping, n | .new, n | .unary _, n | .updateBefore _, n | .updateAfter _, n => n == 1
  | .conditional, n => n == 3
  | .member, n | .index, n | .assignment _, n | .comma, n | .binary _, n | .logical _, n => n == 2

/-- The table entry agrees with what is built: it counts as many operands, and keeps the third operand of a
conditional behind the separator. -/
structure Operator.Regular (op : Operator) : Prop where
  takes : op.kind.takes op.arity = true
  separates : op.kind = .conditional → op.places.secondRight = true

theorem Operator.Listed.regular {op : Operator} (h : op.Listed) : op.Regular := by
  have plain : ∀ {op : Operator}, op.kind.takes op.arity = true → op.kind ≠ .conditional → op.Regular :=
    fun htakes hkind => ⟨htakes, fun h => absurd h hkind⟩
  cases h with
  | grouping | member | index | new => exact plain rfl (by decide)
  | conditional => exact ⟨rfl, fun _ => rfl⟩
  | call hasArguments => cases hasArguments <;> exact plain rfl (by decide)
  | unary o | updateBefore o | updateAfter o => exact plain rfl (fun h => by cases h)
  | between h =>
    obtain ⟨o, rfl⟩ | ⟨o, rfl⟩ | ⟨o, p, rfl, -⟩ | rfl | rfl := between?_cases h
    · exact plain rfl (fun h => by cases h)
    · exact plain rfl (fun h => by cases h)
    · exact plain rfl (fun h => by cases h)
    · exact ⟨rfl, fun _ => rfl⟩
    · exact plain rfl (by decide)
  | before h =>
    obtain ⟨o, rfl⟩ | ⟨o, rfl⟩ := before?_cases h <;> exact plain rfl (fun h => by cases h)
  | after h =>
    obtain ⟨o, rfl⟩ := after?_cases h
    exact plain rfl (fun h => by cases h)

/-! ## Building -/

namespace Expr

/-- A name or a property in any number of parentheses. -/
inductive IsTarget : Expr → Prop
  | name (id : Identifier) : IsTarget (.identifier id)
  | member (object : Expr) (property : Identifier) : IsTarget (.member object property)
  | index (object key : Expr) : IsTarget (.index object key)
  | grouping {e : Expr} : IsTarget e → IsTarget (.grouping e)

theorem isReference_iff (e : Expr) : e.isReference = true ↔ e.IsTarget := by
  unfold isReference
  fun_induction ungroup e with
  | case1 e ih =>
    refine ih.trans ⟨.grouping, fun h => ?_⟩
    cases h
    assumption
  | case2 e hgrouping =>
    constructor
    · intro h
      split at h
      · exact .name _
      · exact .member _ _
      · exact .index _ _
      · cases h
    · intro h
      cases h with
      | grouping h => exact (hgrouping _ rfl).elim
      | _ => rfl

/-- The kind of operator that the root of a tree stands for. -/
def operatorKind? : Expr → Option OperatorKind
  | .grouping _ => some .grouping
  | .call .. => some .call
  | .member .. => some .member
  | .index .. => some .index
  | .new _ => some .new
  | .assignment o _ _ => some (.assignment o)
  | .conditional .. => some .conditional
  | .sequence _ => some .comma
  | .unary o _ => some (.unary o)
  | .update o true _ => some (.updateBefore o)
  | .update o false _ => some (.updateAfter o)
  | .binary o _ _ => some (.binary o)
  | .logical o _ _ => some (.logical o)
  | _ => none

/-- The operands of the root of a tree, from left to right. -/
def operands : Expr → List Expr
  | .grouping e | .new e | .unary _ e | .update _ _ e => [e]
  | .call callee arguments => callee :: arguments.toList
  | .member base property => [base, .identifier property]
  | .index left right | .assignment _ left right | .binary _ left right | .logical _ left right => [left, right]
  | .conditional test consequent alternate => [test, consequent, alternate]
  | .sequence items => items
  | _ => []

end Expr

namespace Operator

/-- What operands must be like, beside their number: a property is a bare name, and what is assigned to or
updated is a reference. -/
def Fits : OperatorKind → List Expr → Prop
  | .member, es => ∃ id, es[1]? = some (.identifier id)
  | .assignment _, es | .updateBefore _, es | .updateAfter _, es => ∃ target, es[0]? = some target ∧ target.IsTarget
  | _, _ => True

def flatten : OperatorKind → List Expr → List Expr
  | .comma, .sequence items :: rest => items ++ rest
  | _, es => es

/-- What building comes to: the tree of these operands if they fit, otherwise a fault of the text. -/
inductive Outcome (kind : OperatorKind) (es : List Expr) : Except SyntaxFault Expr → Prop
  | built (e : Expr) : Fits kind es → e.operatorKind? = some kind → e.operands = flatten kind es → Outcome kind es (.ok e)
  | refused (f : SyntaxFault) : ¬ Fits kind es → f.isInternal = false → Outcome kind es (.error f)

theorem outcome_target {kind : OperatorKind} {target e : Expr} {es : List Expr} {use : TargetUse}
    (hfits : Fits kind (target :: es) ↔ target.IsTarget) (hkind : e.operatorKind? = some kind)
    (hoperands : e.operands = flatten kind (target :: es)) :
    Outcome kind (target :: es) (requireReference target use >>= fun _ => .ok e) := by
  rw [requireReference]
  split
  case isTrue h => exact .built e (hfits.2 ((Expr.isReference_iff _).1 h)) hkind hoperands
  case isFalse h => exact .refused _ (fun hf => h ((Expr.isReference_iff _).2 (hfits.1 hf))) rfl

theorem outcome_member (object property : Expr) :
    Outcome .member [object, property] (Operator.member.build [object, property]) := by
  have refused : (∀ id, property ≠ .identifier id) →
      Outcome .member [object, property] (.error (.expectedProperty property)) := by
    refine fun h => .refused _ ?_ rfl
    rintro ⟨id, hid⟩
    exact h id (Option.some.inj hid)
  cases property with
  | identifier id => exact .built _ ⟨id, rfl⟩ rfl rfl
  | _ => exact refused (fun _ h => by cases h)

theorem outcome_comma (left right : Expr) : Outcome .comma [left, right] (Operator.comma.build [left, right]) := by
  cases left <;> exact .built _ trivial rfl rfl

theorem build_outcome {op : Operator} {es : List Expr} (h : op.kind.takes es.length = true) :
    Outcome op.kind es (op.build es) := by
  obtain ⟨kind, arity, primary, secondary, tertiary, places⟩ := op
  have target : ∀ {target : Expr} {es : List Expr}, (∃ t, (target :: es)[0]? = some t ∧ t.IsTarget) ↔ target.IsTarget := by
    simp
  -- The kind fixes the number of operands, up to the arguments of a call.
  rcases es with _ | ⟨a, _ | ⟨b, _ | ⟨c, _ | ⟨d, es⟩⟩⟩⟩
  · cases kind <;> cases h
  · cases kind with
    | grouping | call | new | unary => exact .built _ trivial rfl rfl
    | updateBefore | updateAfter => exact outcome_target target rfl rfl
    | _ => cases h
  · cases kind with
    | call | index | binary | logical => exact .built _ trivial rfl rfl
    | member => exact outcome_member a b
    | assignment => exact outcome_target target rfl rfl
    | comma => exact outcome_comma a b
    | _ => cases h
  · cases kind with
    | conditional => exact .built _ trivial rfl rfl
    | _ => cases h
  · cases kind <;> cases h

end Operator

/-! ## Filling -/

namespace Pending

inductive Action
  | push (e : Expr)
  | pop
  | seeSecondToken

/-- The operator behind a step, whether the step fails or not. -/
def act (p : Pending) : Action → Pending
  | .push e => after (push e p)
  | .pop => after (pop p)
  | .seeSecondToken => after (seeSecondToken p)
where
  after {α : Type} : EStateM.Result SyntaxFault Pending α → Pending
    | .ok _ q | .error _ q => q

def fill (op : Operator) (actions : List Action) : Pending := actions.foldl act (start op)

def Action.pushed? : Action → Option Expr
  | .push e => some e
  | _ => none

theorem push_eq (e : Expr) (p : Pending) :
    push e p = if p.accepting = true then .ok () { p with operands := p.operands ++ [e] }
      else .error (.unexpectedOperand p.operator.kind) p := by
  cases h : p.accepting
  · change (if p.accepting = true then _ else _ : Filling Unit) p = _
    rw [h]
    rfl
  · change (if p.accepting = true then _ else _ : Filling Unit) p = _
    rw [h]
    rfl

structure Holds (op : Operator) (actions : List Action) (p : Pending) : Prop where
  operator : p.operator = op
  bounded : p.filled ≤ op.arity
  separated : op.kind = .conditional → 3 ≤ p.filled → p.secondToken = true
  seen : p.secondToken = true ↔ .seeSecondToken ∈ actions
  inOrder : p.operands.Sublist (actions.filterMap Action.pushed?)

theorem holds_start (op : Operator) : Holds op [] (start op) where
  operator := rfl
  bounded := Nat.zero_le _
  separated _ h := by cases h
  seen := by simp [start]
  inOrder := .slnil

theorem accepting_iff (p : Pending) : p.accepting = true ↔
    p.filled < p.operator.arity ∧ (p.operator.places.secondRight = true → 2 ≤ p.filled → p.secondToken = true) := by
  cases hright : p.operator.places.secondRight <;> cases hseen : p.secondToken <;> simp [accepting, hright, hseen]

theorem Holds.act {op : Operator} {actions : List Action} {p : Pending} (hop : op.Regular) (h : Holds op actions p)
    (a : Action) : Holds op (actions ++ [a]) (p.act a) := by
  obtain ⟨rfl, hbounded, hseparated, hseen, horder⟩ := h
  cases a with
  | push e =>
    have hwider : p.operands.Sublist ((actions ++ [Action.push e]).filterMap Action.pushed?) := by
      rw [List.filterMap_append]
      exact horder.trans (List.sublist_append_left _ _)
    rw [Pending.act, push_eq]
    split
    case isFalse => exact ⟨rfl, hbounded, hseparated, by simp [act.after, hseen], hwider⟩
    case isTrue haccepting =>
      obtain ⟨hroom, hseparator⟩ := p.accepting_iff.1 haccepting
      have hfilled : Pending.filled { p with operands := p.operands ++ [e] } = p.filled + 1 := List.length_append
      refine ⟨rfl, ?_, fun hkind hthird => ?_, by simp [act.after, hseen], ?_⟩
      · rw [act.after, hfilled]
        exact hroom
      · rw [act.after, hfilled] at hthird
        exact hseparator (hop.separates hkind) (Nat.le_of_succ_le_succ hthird)
      · rw [List.filterMap_append]
        exact horder.append (List.Sublist.refl _)
  | pop =>
    have hshorter : (p.operands.dropLast).Sublist p.operands := List.dropLast_sublist _
    refine ⟨rfl, Nat.le_trans hshorter.length_le hbounded, fun hkind hthird => ?_, ?_, ?_⟩
    · exact hseparated hkind (Nat.le_trans hthird hshorter.length_le)
    · change p.secondToken = true ↔ _
      simpa using hseen
    · rw [List.filterMap_append]
      exact (hshorter.trans horder).trans (List.sublist_append_left _ _)
  | seeSecondToken =>
    refine ⟨rfl, hbounded, fun _ _ => rfl, ⟨fun _ => by simp, fun _ => rfl⟩, ?_⟩
    rw [List.filterMap_append]
    exact horder.trans (List.sublist_append_left _ _)

theorem Holds.acts {op : Operator} {before : List Action} {p : Pending} (hop : op.Regular) (h : Holds op before p)
    (actions : List Action) : Holds op (before ++ actions) (actions.foldl Pending.act p) := by
  induction actions generalizing before p with
  | nil => rwa [List.append_nil]
  | cons a actions ih =>
    rw [List.append_cons]
    exact ih (h.act hop a)

theorem holds_fill {op : Operator} (hop : op.Regular) (actions : List Action) : Holds op actions (fill op actions) :=
  (holds_start op).acts hop actions

/-! ## Finishing -/

/-- All operands and the closing token are there, and the operands are of the right form. -/
def Complete (p : Pending) : Prop :=
  p.filled = p.operator.arity ∧ (p.operator.places.closing = true → p.secondToken = true) ∧
    Operator.Fits p.operator.kind p.operands

/-- What finishing comes to: the tree of these operands if the operator is complete, otherwise a fault of the text. -/
inductive Finished (p : Pending) : Except SyntaxFault Expr → Prop
  | built (e : Expr) : p.Complete → e.operatorKind? = some p.operator.kind →
      e.operands = Operator.flatten p.operator.kind p.operands → Finished p (.ok e)
  | refused (f : SyntaxFault) : ¬ p.Complete → f.isInternal = false → Finished p (.error f)

theorem finish_finished {p : Pending} (hop : p.operator.Regular) : p.Finished p.finish := by
  unfold finish checkValid
  split
  case isTrue hcount => exact .refused _ (fun h => hcount h.1) rfl
  case isFalse hcount =>
    have hcount : p.filled = p.operator.arity := Decidable.not_not.1 hcount
    split
    case isTrue hclosing =>
      simp only [Bool.and_eq_true, Bool.not_eq_true'] at hclosing
      refine .refused _ (fun h => ?_) rfl
      rw [h.2.1 hclosing.1] at hclosing
      cases hclosing.2
    case isFalse hclosing =>
      have hclosing : p.operator.places.closing = true → p.secondToken = true := by simpa using hclosing
      have htakes : p.operator.kind.takes p.operands.length = true := by
        rw [← show p.filled = p.operands.length from rfl, hcount]
        exact hop.takes
      have houtcome := Operator.build_outcome htakes
      change p.Finished (p.operator.build p.operands)
      generalize p.operator.build p.operands = result at houtcome
      cases houtcome with
      | built e hfits hkind hoperands => exact .built e ⟨hcount, hclosing, hfits⟩ hkind hoperands
      | refused f hfits hf => exact .refused f (fun h => hfits h.2.2) hf

/-- What holds of an operator after some steps, and what becomes of it then. -/
structure Sound (op : Operator) (actions : List Action) (p : Pending) : Prop extends Holds op actions p where
  kept : ∀ e f q, push e p = .error f q → q = p
  finishes : (∃ e, p.finish = .ok e) ↔ p.Complete
  external : ∀ f, p.finish = .error f → f.isInternal = false
  builds : ∀ e, p.finish = .ok e →
    e.operatorKind? = some op.kind ∧ e.operands = Operator.flatten op.kind p.operands

/-- **Filling an operator is sound in any order.** After any steps the operands are at most as many as the
operator counts and stand in the order in which they were given; a conditional has a third one only behind its
separator, and a step that is refused changes nothing. The tree is built when the operator is complete, and only
then; it has these operands, where a list on the left of a comma grows. Where there is no tree, the text is to
blame. -/
theorem fill_sound {op : Operator} (hop : op.Listed) (actions : List Action) : Sound op actions (fill op actions) := by
  have hregular := hop.regular
  have hholds := holds_fill hregular actions
  generalize fill op actions = p at hholds
  obtain rfl := hholds.operator
  have hfinished := finish_finished hregular
  refine ⟨hholds, fun e f q h => ?_, ?_, fun f hf => ?_, fun e he => ?_⟩
  · rw [push_eq] at h
    split at h <;> cases h
    rfl
  · constructor
    · rintro ⟨e, he⟩
      rw [he] at hfinished
      cases hfinished
      assumption
    · intro hcomplete
      cases hfinish : p.finish with
      | ok e => exact ⟨e, rfl⟩
      | error f =>
        rw [hfinish] at hfinished
        cases hfinished
        contradiction
  · rw [hf] at hfinished
    cases hfinished
    assumption
  · rw [he] at hfinished
    cases hfinished
    exact ⟨by assumption, by assumption⟩

/-- The third operand of a conditional is refused in front of the separator, and taken back once behind it. -/
theorem fill_sound_conditional :
    Operator.conditional.Listed ∧
      ∃ actions e, actions = [.push .this, .push .null, .push (.boolean true), .seeSecondToken, .push (.boolean true),
          .pop, .push (.boolean false), .push .this] ∧
        Sound .conditional actions (fill .conditional actions) ∧ (fill .conditional actions).finish = .ok e ∧
        e.operands = [.this, .null, .boolean false] :=
  ⟨.conditional, _, _, rfl, fill_sound .conditional _, rfl, rfl⟩

end Pending

end ScriptEngine
