/-
Trees that respect the operator table. An operand without parentheses binds at
least as tightly as its place asks for, what is assigned to is a reference, and
`new`, calls and property accesses are grouped the way they are read. Main
definition: `Expr.Respects`.
-/
import ScriptEngine.Operator.Pending
import ScriptEngine.Proofs.Tree.Guarded

namespace ScriptEngine

/-! ## How tightly trees bind -/

/-- The binding power of an operator that groups to the left. -/
def BinaryOp.power : BinaryOp → Nat
  | .bitwiseOr => Precedence.bitwiseOr
  | .bitwiseXor => Precedence.bitwiseXor
  | .bitwiseAnd => Precedence.bitwiseAnd
  | .equal | .notEqual | .strictEqual | .strictNotEqual => Precedence.equality
  | .lessThan | .lessThanEqual | .greaterThan | .greaterThanEqual | .isIn | .instanceOf => Precedence.relational
  | .leftShift | .rightShift | .unsignedRightShift => Precedence.shift
  | .add | .subtract => Precedence.additive
  | .multiply | .divide | .modulo => Precedence.multiplicative

def LogicalOp.power : LogicalOp → Nat
  | .or => Precedence.logicalOr
  | .and => Precedence.logicalAnd

theorem BinaryOp.power_bounds (op : BinaryOp) : Precedence.conditional < op.power ∧ op.power < Precedence.unary := by
  cases op <;> decide

theorem LogicalOp.power_bounds (op : LogicalOp) : Precedence.conditional < op.power ∧ op.power < Precedence.unary := by
  cases op <;> decide

/-- The mark of an assignment. Not every operator can be combined with one. -/
def assignmentMark? : Option BinaryOp → Option Punctuator
  | none => some .equal
  | some .add => some .plusEqual
  | some .subtract => some .minusEqual
  | some .multiply => some .starEqual
  | some .divide => some .slashEqual
  | some .modulo => some .percentEqual
  | some .leftShift => some .leftShiftEqual
  | some .rightShift => some .rightShiftEqual
  | some .unsignedRightShift => some .unsignedRightShiftEqual
  | some .bitwiseAnd => some .ampersandEqual
  | some .bitwiseOr => some .pipeEqual
  | some .bitwiseXor => some .caretEqual
  | some _ => none

theorem Operator.between?_cases {k : TokenKind} {op : Operator} (h : between? k = some op) :
    (∃ o : BinaryOp, op = binary o o.power) ∨ (∃ o : LogicalOp, op = logical o o.power) ∨
      (∃ o p, op = assignment o ∧ assignmentMark? o = some p) ∨ op = conditional ∨ op = comma := by
  -- Each row of the table is one of the five.
  cases k with
  | mark p =>
    cases p <;> first
      | cases h; done
      | exact .inl ⟨_, (Option.some.inj h).symm⟩
      | exact .inr (.inl ⟨_, (Option.some.inj h).symm⟩)
      | exact .inr (.inr (.inl ⟨_, _, (Option.some.inj h).symm, rfl⟩))
      | exact .inr (.inr (.inr (.inl (Option.some.inj h).symm)))
      | exact .inr (.inr (.inr (.inr (Option.some.inj h).symm)))
  | word w => cases w <;> first | cases h; done | exact .inl ⟨_, (Option.some.inj h).symm⟩
  | _ => cases h

theorem Operator.before?_cases {k : TokenKind} {op : Operator} (h : before? k = some op) :
    (∃ o, op = unary o) ∨ ∃ o, op = updateBefore o := by
  cases k with
  | mark p =>
    cases p <;> first
      | cases h; done
      | exact .inl ⟨_, (Option.some.inj h).symm⟩
      | exact .inr ⟨_, (Option.some.inj h).symm⟩
  | word w => cases w <;> first | cases h; done | exact .inl ⟨_, (Option.some.inj h).symm⟩
  | _ => cases h

theorem Operator.after?_cases {k : TokenKind} {op : Operator} (h : after? k = some op) : ∃ o, op = updateAfter o := by
  cases k with
  | mark p => cases p <;> first | cases h; done | exact ⟨_, (Option.some.inj h).symm⟩
  | _ => cases h

namespace Expr

/-- How tightly the outermost operator of a tree binds. -/
def binds : Expr → Nat
  | .unary .. => Precedence.unary
  | .update _ true _ => Precedence.unary
  | .update _ false _ => Precedence.update
  | .binary op _ _ => op.power
  | .logical op _ _ => op.power
  | .assignment .. => Precedence.assignment
  | .conditional .. => Precedence.conditional
  | .sequence _ => Precedence.comma
  | .call .. | .member .. | .index .. => Precedence.member
  | .new operand => (Pending.mk Operator.new [operand] false).effectivePrecedence
  | _ => Precedence.greatest

/-- No object that the properties of the tree belong to is the value of a bare call. -/
def callless : Expr → Bool
  | .call .. => false
  | .member base _ => base.callless
  | .index base _ => base.callless
  | _ => true

/-- What `new` can stand in front of: the first arguments behind it are its own. -/
def FitsNew : Expr → Prop
  | .call callee _ => callee.callless = true
  | e => Precedence.new ≤ e.binds ∧ e.callless = true

end Expr

/-! ## Trees that respect the table -/

mutual

/-- The tree respects the operator table, also inside its functions. -/
def Expr.Respects : Expr → Prop
  | .number _ => True
  | .string _ => True
  | .boolean _ => True
  | .null => True
  | .identifier _ => True
  | .this => True
  | .array elements => elementsRespect elements
  | .object properties => propertiesRespect properties
  | .function f => f.Respects
  | .grouping e => e.Respects
  | .unary _ e => Precedence.unary ≤ e.binds ∧ e.Respects
  | .update _ _ e => e.isReference = true ∧ e.Respects
  | .binary op l r => op.power ≤ l.binds ∧ op.power < r.binds ∧ l.Respects ∧ r.Respects
  | .logical op l r => op.power ≤ l.binds ∧ op.power < r.binds ∧ l.Respects ∧ r.Respects
  | .assignment op l r =>
    ((assignmentMark? op).isSome = true ∧ l.isReference = true ∧ Precedence.assignment ≤ r.binds) ∧
      l.Respects ∧ r.Respects
  | .conditional test a b =>
    (Precedence.conditional < test.binds ∧ Precedence.assignment ≤ a.binds ∧ Precedence.assignment ≤ b.binds) ∧
      test.Respects ∧ a.Respects ∧ b.Respects
  | .sequence items => 2 ≤ items.length ∧ itemsRespect items
  | .call callee arguments => Precedence.member ≤ callee.binds ∧ callee.Respects ∧ optionRespects arguments
  | .member e _ => Precedence.member ≤ e.binds ∧ e.Respects
  | .index l r => Precedence.member ≤ l.binds ∧ l.Respects ∧ r.Respects
  | .new e => e.FitsNew ∧ e.Respects

def FunctionTree.Respects : FunctionTree → Prop
  | ⟨_, _, body, _⟩ => bodyRespects body

def optionRespects : Option Expr → Prop
  | none => True
  | some e => e.Respects

def elementsRespect : List (Option Expr) → Prop
  | [] => True
  | none :: es => elementsRespect es
  | some e :: es => (Precedence.assignment ≤ e.binds ∧ e.Respects) ∧ elementsRespect es

def propertiesRespect : List (String × Expr) → Prop
  | [] => True
  | (_, e) :: ps => (Precedence.assignment ≤ e.binds ∧ e.Respects) ∧ propertiesRespect ps

def itemsRespect : List Expr → Prop
  | [] => True
  | e :: es => (Precedence.assignment ≤ e.binds ∧ e.Respects) ∧ itemsRespect es

def declaratorsRespect : List Declarator → Prop
  | [] => True
  | ⟨_, init⟩ :: ds => optionRespects init ∧ declaratorsRespect ds

def LoopInit.Respects : LoopInit → Prop
  | .declare ds => declaratorsRespect ds
  | .evaluate e => e.Respects

def loopInitRespects : Option LoopInit → Prop
  | none => True
  | some init => init.Respects

def KeyTarget.Respects : KeyTarget → Prop
  | .declare ⟨_, init⟩ => optionRespects init
  | .assign e => e.isReference = true ∧ e.Respects

def LoopHead.Respects : LoopHead → Prop
  | .counted init test update => loopInitRespects init ∧ optionRespects test ∧ optionRespects update
  | .whileTest test => test.Respects
  | .doWhile test => test.Respects
  | .forIn target object => target.Respects ∧ object.Respects

def Stmt.Respects : Stmt → Prop
  | ⟨_, _, kind⟩ => kind.Respects

def StmtKind.Respects : StmtKind → Prop
  | .var ds => declaratorsRespect ds
  | .function f => f.Respects
  | .expression e => e.Respects
  | .block body => bodyRespects body
  | .branch test consequent alternate => test.Respects ∧ consequent.Respects ∧ alternateRespects alternate
  | .loop head body => head.Respects ∧ body.Respects
  | .switch discriminant cases => discriminant.Respects ∧ casesRespect cases
  | .returns value => optionRespects value
  | .breaks _ => True
  | .continues _ => True
  | .throws value => value.Respects
  | .attempt block handler finalizer =>
    (handler.isSome ∨ finalizer.isSome) ∧ bodyRespects block ∧ handlerRespects handler ∧ finalizerRespects finalizer
  | .scoped object body => object.Respects ∧ body.Respects
  | .empty => True

def alternateRespects : Option Stmt → Prop
  | none => True
  | some s => s.Respects

def handlerRespects : Option CatchClause → Prop
  | none => True
  | some ⟨_, body⟩ => bodyRespects body

def finalizerRespects : Option (List Stmt) → Prop
  | none => True
  | some body => bodyRespects body

def bodyRespects : List Stmt → Prop
  | [] => True
  | s :: ss => s.Respects ∧ bodyRespects ss

def casesRespect : List SwitchCase → Prop
  | [] => True
  | ⟨test, body⟩ :: cs => optionRespects test ∧ bodyRespects body ∧ casesRespect cs

end

/-! ## Their functions -/

theorem respects_hold : (∀ e : Expr, e.Respects → e.Holds FunctionTree.Respects) ∧
    (∀ e, optionRespects e → optionHolds FunctionTree.Respects e) ∧
    (∀ es, itemsRespect es → itemsHold FunctionTree.Respects es) ∧
    (∀ f : FunctionTree, f.Respects → bodyHolds FunctionTree.Respects f.body) ∧
    (∀ body, bodyRespects body → bodyHolds FunctionTree.Respects body) ∧
    (∀ s : Stmt, s.Respects → s.Holds FunctionTree.Respects) ∧
    (∀ kind : StmtKind, kind.Respects → kind.Holds FunctionTree.Respects) ∧
    (∀ body, finalizerRespects body → finalizerHolds FunctionTree.Respects body) ∧
    (∀ c, handlerRespects c → handlerHolds FunctionTree.Respects c) ∧
    (∀ cs, casesRespect cs → casesHold FunctionTree.Respects cs) ∧
    (∀ head : LoopHead, head.Respects → head.Holds FunctionTree.Respects) ∧
    (∀ target : KeyTarget, target.Respects → target.Holds FunctionTree.Respects) ∧
    (∀ init, loopInitRespects init → ∀ i, init = some i → i.Holds FunctionTree.Respects) ∧
    (∀ init : LoopInit, init.Respects → init.Holds FunctionTree.Respects) ∧
    (∀ ds, declaratorsRespect ds → declaratorsHold FunctionTree.Respects ds) ∧
    (∀ s, alternateRespects s → alternateHolds FunctionTree.Respects s) ∧
    (∀ ps, propertiesRespect ps → propertiesHold FunctionTree.Respects ps) ∧
    ∀ es, elementsRespect es → elementsHold FunctionTree.Respects es := by
  apply Expr.Respects.mutual_induct
  all_goals
    simp only [Expr.Respects, Expr.Holds, optionRespects, optionHolds, itemsRespect, itemsHold, FunctionTree.Respects,
      bodyRespects, bodyHolds, Stmt.Respects, Stmt.Holds, StmtKind.Respects, StmtKind.Holds, finalizerRespects,
      finalizerHolds, handlerRespects, handlerHolds, casesRespect, casesHold, LoopHead.Respects, LoopHead.Holds,
      KeyTarget.Respects, KeyTarget.Holds, loopInitRespects, LoopInit.Respects, LoopInit.Holds, declaratorsRespect,
      declaratorsHold, alternateRespects, alternateHolds, propertiesRespect, propertiesHold, elementsRespect, elementsHold]
    grind

theorem bodyRespects_holds (body : List Stmt) : bodyRespects body → bodyHolds FunctionTree.Respects body :=
  respects_hold.2.2.2.2.1 body

theorem FunctionTree.Respects.guarded : ∀ {n : Nat} {f : FunctionTree}, f.Respects → f.nesting ≤ n → f.Guarded
  | 0, ⟨_, _, _, _⟩, _, hn => by simp [FunctionTree.nesting] at hn
  | n + 1, ⟨_, _, body, _⟩, h, hn => by
    simp only [FunctionTree.nesting, Nat.add_le_add_iff_right] at hn
    exact FunctionTree.guarded_of_body (body_imp (fun _ hf hk => hf.guarded hk) body (bodyRespects_holds body h) 0 hn)

theorem bodyRespects_guarded {body : List Stmt} (h : bodyRespects body) : bodyHolds FunctionTree.Guarded body :=
  body_imp (fun _ hf hk => hf.guarded hk) body (bodyRespects_holds body h) 0 (Nat.le_refl _)

end ScriptEngine
