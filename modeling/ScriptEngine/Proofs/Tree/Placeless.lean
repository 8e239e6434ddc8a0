/-
Trees without their places. A tree keeps, beside what it says, where in the
text its names, functions and statements stand. `placeless` puts all of them at
the beginning of the text, also inside functions, so that two trees say the
same when they are equal without their places. Tokens and cursors have places
as well.
-/
import ScriptEngine.Tree.Cursor
import ScriptEngine.Scope.Analysis

namespace ScriptEngine

def Span.nowhere : Span := ⟨0, 0⟩

def Identifier.placeless (id : Identifier) : Identifier := ⟨id.name, .nowhere⟩

mutual

def Expr.placeless : Expr → Expr
  | .number value => .number value
  | .string value => .string value
  | .boolean value => .boolean value
  | .null => .null
  | .identifier id => .identifier id.placeless
  | .this => .this
  | .array elements => .array (elementsPlaceless elements)
  | .object properties => .object (propertiesPlaceless properties)
  | .function f => .function f.placeless
  | .grouping e => .grouping e.placeless
  | .unary op e => .unary op e.placeless
  | .update op before e => .update op before e.placeless
  | .binary op l r => .binary op l.placeless r.placeless
  | .logical op l r => .logical op l.placeless r.placeless
  | .assignment op l r => .assignment op l.placeless r.placeless
  | .conditional test a b => .conditional test.placeless a.placeless b.placeless
  | .sequence items => .sequence (itemsPlaceless items)
  | .call callee arguments => .call callee.placeless (optionPlaceless arguments)
  | .member e property => .member e.placeless property.placeless
  | .index l r => .index l.placeless r.placeless
  | .new e => .new e.placeless

def FunctionTree.placeless : FunctionTree → FunctionTree
  | ⟨id, params, body, _⟩ =>
    ⟨id.map Identifier.placeless, params.map Identifier.placeless, bodyPlaceless body, .nowhere⟩

def optionPlaceless : Option Expr → Option Expr
  | none => none
  | some e => some e.placeless

def elementsPlaceless : List (Option Expr) → List (Option Expr)
  | [] => []
  | e :: es => optionPlaceless e :: elementsPlaceless es

def propertiesPlaceless : List (String × Expr) → List (String × Expr)
  | [] => []
  | (key, e) :: ps => (key, e.placeless) :: propertiesPlaceless ps

def itemsPlaceless : List Expr → List Expr
  | [] => []
  | e :: es => e.placeless :: itemsPlaceless es

def Declarator.placeless : Declarator → Declarator
  | ⟨id, init⟩ => ⟨id.placeless, optionPlaceless init⟩

def declaratorsPlaceless : List Declarator → List Declarator
  | [] => []
  | d :: ds => d.placeless :: declaratorsPlaceless ds

def LoopInit.placeless : LoopInit → LoopInit
  | .declare ds => .declare (declaratorsPlaceless ds)
  | .evaluate e => .evaluate e.placeless

def loopInitPlaceless : Option LoopInit → Option LoopInit
  | none => none
  | some init => some init.placeless

def KeyTarget.placeless : KeyTarget → KeyTarget
  | .declare d => .declare d.placeless
  | .assign e => .assign e.placeless

def LoopHead.placeless : LoopHead → LoopHead
  | .counted init test update =>
    .counted (loopInitPlaceless init) (optionPlaceless test) (optionPlaceless update)
  | .whileTest test => .whileTest test.placeless
  | .doWhile test => .doWhile test.placeless
  | .forIn target object => .forIn target.placeless object.placeless

def Stmt.placeless : Stmt → Stmt
  | ⟨labels, _, kind⟩ => ⟨labels, .nowhere, kind.placeless⟩

def StmtKind.placeless : StmtKind → StmtKind
  | .var ds => .var (declaratorsPlaceless ds)
  | .function f => .function f.placeless
  | .expression e => .expression e.placeless
  | .block body => .block (bodyPlaceless body)
  | .branch test consequent alternate =>
    .branch test.placeless consequent.placeless (alternatePlaceless alternate)
  | .loop head body => .loop head.placeless body.placeless
  | .switch discriminant cases => .switch discriminant.placeless (casesPlaceless cases)
  | .returns value => .returns (optionPlaceless value)
  | .breaks label => .breaks (label.map Identifier.placeless)
  | .continues label => .continues (label.map Identifier.placeless)
  | .throws value => .throws value.placeless
  | .attempt block handler finalizer =>
    .attempt (bodyPlaceless block) (handlerPlaceless handler) (finalizerPlaceless finalizer)
  | .scoped object body => .scoped object.placeless body.placeless
  | .empty => .empty

def alternatePlaceless : Option Stmt → Option Stmt
  | none => none
  | some s => some s.placeless

def handlerPlaceless : Option CatchClause → Option CatchClause
  | none => none
  | some ⟨param, body⟩ => some ⟨param.placeless, bodyPlaceless body⟩

def finalizerPlaceless : Option (List Stmt) → Option (List Stmt)
  | none => none
  | some body => some (bodyPlaceless body)

def bodyPlaceless : List Stmt → List Stmt
  | [] => []
  | s :: ss => s.placeless :: bodyPlaceless ss

def SwitchCase.placeless : SwitchCase → SwitchCase
  | ⟨test, body⟩ => ⟨optionPlaceless test, bodyPlaceless body⟩

def casesPlaceless : List SwitchCase → List SwitchCase
  | [] => []
  | c :: cs => c.placeless :: casesPlaceless cs

end

def Program.placeless (p : Program) : Program := ⟨bodyPlaceless p.body⟩

/-! ## Parts that stand in lists -/

theorem optionPlaceless_eq (e : Option Expr) : optionPlaceless e = e.map Expr.placeless := by
  cases e <;> rfl

theorem elementsPlaceless_eq (es : List (Option Expr)) : elementsPlaceless es = es.map optionPlaceless := by
  induction es with
  | nil => rfl
  | cons e es ih => rw [elementsPlaceless, ih, List.map_cons]

theorem propertiesPlaceless_eq (ps : List (String × Expr)) :
    propertiesPlaceless ps = ps.map (Prod.map id Expr.placeless) := by
  induction ps with
  | nil => rfl
  | cons p ps ih => rw [propertiesPlaceless, ih, List.map_cons]; rfl

theorem itemsPlaceless_eq (es : List Expr) : itemsPlaceless es = es.map Expr.placeless := by
  induction es with
  | nil => rfl
  | cons e es ih => rw [itemsPlaceless, ih, List.map_cons]

theorem declaratorsPlaceless_eq (ds : List Declarator) : declaratorsPlaceless ds = ds.map Declarator.placeless := by
  induction ds with
  | nil => rfl
  | cons d ds ih => rw [declaratorsPlaceless, ih, List.map_cons]

theorem bodyPlaceless_eq (ss : List Stmt) : bodyPlaceless ss = ss.map Stmt.placeless := by
  induction ss with
  | nil => rfl
  | cons s ss ih => rw [bodyPlaceless, ih, List.map_cons]

theorem casesPlaceless_eq (cs : List SwitchCase) : casesPlaceless cs = cs.map SwitchCase.placeless := by
  induction cs with
  | nil => rfl
  | cons c cs ih => rw [casesPlaceless, ih, List.map_cons]

/-! ## What is asked of expressions -/

namespace Expr

theorem isReference_placeless : ∀ e : Expr, e.placeless.isReference = e.isReference
  | .grouping e => isReference_placeless e
  | .number _ | .string _ | .boolean _ | .null | .identifier _ | .this | .array _ | .object _ | .function _
  | .unary .. | .update .. | .binary .. | .logical .. | .assignment .. | .conditional .. | .sequence _ | .call ..
  | .member .. | .index .. | .new _ => rfl

end Expr

/-! ## Operators -/

theorem requireReference_placeless (e : Expr) (use : TargetUse) :
    requireReference e.placeless use = requireReference e use := by
  rw [requireReference, requireReference, Expr.isReference_placeless]

theorem requireReference_bind_placeless (target e : Expr) (use : TargetUse) :
    (requireReference target.placeless use >>= fun _ => Except.ok e.placeless).toOption =
      (requireReference target use >>= fun _ => Except.ok e).toOption.map Expr.placeless := by
  rw [requireReference_placeless, requireReference]
  cases target.isReference <;> rfl

theorem Operator.build_placeless (op : Operator) (operands : List Expr) :
    (op.build (operands.map Expr.placeless)).toOption = (op.build operands).toOption.map Expr.placeless := by
  unfold Operator.build
  rcases operands with _ | ⟨a, _ | ⟨b, _ | ⟨c, rest⟩⟩⟩
  · cases op.kind <;> rfl
  · cases op.kind with
    | updateBefore o => exact requireReference_bind_placeless a (.update o true a) .update
    | updateAfter o => exact requireReference_bind_placeless a (.update o false a) .update
    | comma => cases a <;> rfl
    | _ => rfl
  · cases op.kind with
    | assignment o => exact requireReference_bind_placeless a (.assignment o a b) .assignment
    | member => cases b <;> rfl
    | comma =>
      cases a with
      | sequence items =>
        change some (Expr.sequence (itemsPlaceless items ++ [b.placeless])) =
          some (Expr.sequence (itemsPlaceless (items ++ [b])))
        simp [itemsPlaceless_eq]
      | _ => rfl
    | _ => rfl
  · cases op.kind with
    | conditional => cases rest <;> rfl
    | member => cases b <;> rfl
    | comma => cases a <;> rfl
    | _ => rfl

/-! ## Tokens and cursors -/

def Token.placeless (t : Token) : Token := { t with span := .nowhere }

def Cursor.placeless (c : Cursor) : Cursor := ⟨c.current.placeless, c.later.map Token.placeless, .nowhere⟩

theorem Cursor.next_placeless (c : Cursor) : c.placeless.next = c.next.placeless := by
  obtain ⟨current, later, last⟩ := c
  cases later <;> rfl

theorem Cursor.ofTokens_placeless (ts : List Token) :
    Cursor.ofTokens (ts.map Token.placeless) = (Cursor.ofTokens ts).placeless := by
  cases ts <;> rfl

theorem Cursor.fuel_placeless (c : Cursor) : c.placeless.fuel = c.fuel := by
  simp [fuel, remaining, placeless]

end ScriptEngine
