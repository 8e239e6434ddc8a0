/-
Plain expressions: those without calls, `new` and functions. Evaluating one
needs no host and always ends. Main statement: `evalExpr_ends`.
-/
import ScriptEngine.Proofs.Meaning.Expression

namespace ScriptEngine

mutual

/-- No calls, no `new` and no functions in the expression. -/
def Expr.Plain : Expr → Prop
  | .number _ => True
  | .string _ => True
  | .boolean _ => True
  | .null => True
  | .identifier _ => True
  | .this => True
  | .array elements => elementsPlain elements
  | .object properties => propertiesPlain properties
  | .function _ => False
  | .grouping e => e.Plain
  | .unary _ e => e.Plain
  | .update _ _ e => e.Plain
  | .binary _ l r => l.Plain ∧ r.Plain
  | .logical _ l r => l.Plain ∧ r.Plain
  | .assignment _ l r => l.Plain ∧ r.Plain
  | .conditional test a b => test.Plain ∧ a.Plain ∧ b.Plain
  | .sequence items => itemsPlain items
  | .call _ _ => False
  | .member e _ => e.Plain
  | .index l r => l.Plain ∧ r.Plain
  | .new _ => False

def elementsPlain : List (Option Expr) → Prop
  | [] => True
  | none :: es => elementsPlain es
  | some e :: es => e.Plain ∧ elementsPlain es

def propertiesPlain : List (String × Expr) → Prop
  | [] => True
  | (_, e) :: ps => e.Plain ∧ propertiesPlain ps

def itemsPlain : List Expr → Prop
  | [] => True
  | e :: es => e.Plain ∧ itemsPlain es

end

namespace Meaning

/-- The evaluation comes to an end in every realm. It depends on nothing else, and changes nothing
else. -/
def Ends (x : Eval α) : Prop :=
  ∀ r, ∃ result r', ∀ sources value, x ⟨r, sources, value⟩ = some (result, ⟨r', sources, value⟩)

theorem Ends.pure (a : α) : Ends (Pure.pure a) := fun r => ⟨.ok a, r, fun _ _ => rfl⟩

theorem Ends.perform (x : Action α) : Ends (perform x) := by
  intro r
  cases hx : x r with
  | ok a r' => exact ⟨.ok a, r', fun _ _ => by simp only [Meaning.perform, hx]⟩
  | error e r' => exact ⟨.error e, r', fun _ _ => by simp only [Meaning.perform, hx]⟩

theorem Ends.bind {x : Eval α} {k : α → Eval β} (hx : Ends x) (hk : ∀ a, Ends (k a)) : Ends (x >>= k) := by
  intro r
  obtain ⟨result, r', hr⟩ := hx r
  simp only [Bind.bind, ExceptT.bind, ExceptT.mk, StateT.bind, hr]
  cases result with
  | ok a => exact hk a r'
  | error e => exact ⟨.error e, r', fun _ _ => rfl⟩

theorem Ends.map {x : Eval α} {f : α → β} (hx : Ends x) : Ends (f <$> x) := by
  rw [← bind_pure_comp]
  exact hx.bind fun _ => .pure _

def Target.Ends : Target → Prop
  | .property object key => Meaning.Ends object ∧ Meaning.Ends key
  | _ => True

section

variable {h : Host} {act : Activation} {t : Target} {x : Eval Value}

theorem ends_readName (name : String) : Ends (readName act name) := (Ends.perform _).map

theorem ends_typeof (hx : Ends x) : Ends (evalTypeof act t x) := by
  cases t with
  | name _ => exact (Ends.perform _).bind fun _ => .pure _
  | property _ _ => exact hx.bind fun _ => .pure _
  | value => exact hx.bind fun _ => .pure _

theorem ends_delete (ht : t.Ends) (hx : Ends x) : Ends (evalDelete act t x) := by
  cases t with
  | name _ => exact (Ends.perform _).bind fun _ => .pure _
  | property _ _ => exact ht.1.bind fun _ => ht.2.bind fun _ => (Ends.perform _).bind fun _ => .pure _
  | value => exact hx.bind fun _ => .pure _

theorem ends_update (ht : t.Ends) (op : UpdateOp) (before : Bool) : Ends (evalUpdate act op before t) := by
  cases t with
  | name name =>
    exact (ends_readName name).bind fun _ => (Ends.perform _).bind fun _ => (Ends.perform _).bind fun _ =>
      (Ends.perform _).bind fun _ => .pure _
  | property _ _ =>
    exact ht.1.bind fun _ => ht.2.bind fun _ => (Ends.perform _).bind fun _ => (Ends.perform _).bind fun _ =>
      (Ends.perform _).bind fun _ => (Ends.perform _).bind fun _ => .pure _
  | value => exact .pure _

theorem ends_combine {old : Eval Value} (op : Option BinaryOp) (ho : Ends old) (hx : Ends x) :
    Ends (combine op old x) := by
  cases op with
  | some op => exact ho.bind fun _ => hx.bind fun _ => .perform _
  | none => exact hx

theorem ends_assignment (ht : t.Ends) (op : Option BinaryOp) (hx : Ends x) : Ends (evalAssignment act op t x) := by
  cases t with
  | name name =>
    exact (ends_combine op (ends_readName name) hx).bind fun _ => (Ends.perform _).bind fun _ => .pure _
  | property _ _ =>
    exact ht.1.bind fun _ => ht.2.bind fun _ => (ends_combine op (.perform _) hx).bind fun _ =>
      (Ends.perform _).bind fun _ => .pure _
  | value => exact .pure _

mutual

/-- **Evaluating a plain expression ends.** -/
theorem evalExpr_ends : ∀ e : Expr, e.Plain → Ends (evalExpr h act e)
  | .number _, _ | .string _, _ | .boolean _, _ | .null, _ | .this, _ => .pure _
  | .identifier id, _ => ends_readName id.name
  | .array elements, he =>
    (Ends.perform _).bind fun made => (evalElements_ends made elements 0 he).bind fun _ => .pure _
  | .object properties, he =>
    (Ends.perform _).bind fun made => (evalProperties_ends made properties he).bind fun _ => .pure _
  | .grouping e, he => evalExpr_ends e he
  | .unary op e, he => by
    have hx := evalExpr_ends e he
    cases op <;> rw [evalExpr]
    case typeof => exact ends_typeof hx
    case delete => exact ends_delete (target_ends e he) hx
    case void => exact hx.bind fun _ => .pure _
    case logicalNot => exact hx.bind fun _ => .pure _
    all_goals exact hx.bind fun _ => .perform _
  | .update op before e, he => ends_update (target_ends e he) op before
  | .binary op l r, he => (evalExpr_ends l he.1).bind fun _ => (evalExpr_ends r he.2).bind fun _ => .perform _
  | .logical op l r, he => by
    cases op <;>
    · rw [evalExpr]
      refine (evalExpr_ends l he.1).bind fun v => ?_
      dsimp only
      split
      · first | exact evalExpr_ends r he.2 | exact .pure _
      · first | exact evalExpr_ends r he.2 | exact .pure _
  | .assignment op t value, he => ends_assignment (target_ends t he.1) op (evalExpr_ends value he.2)
  | .conditional test a b, he => by
    rw [evalExpr]
    refine (evalExpr_ends test he.1).bind fun v => ?_
    split
    · exact evalExpr_ends a he.2.1
    · exact evalExpr_ends b he.2.2
  | .sequence items, he => evalSequence_ends items he
  | .member object _, he => (evalExpr_ends object he).bind fun _ => .perform _
  | .index object key, he =>
    (evalExpr_ends object he.1).bind fun _ => (evalExpr_ends key he.2).bind fun _ => .perform _

theorem target_ends : ∀ e : Expr, e.Plain → (target h act e).Ends
  | .grouping e, he => target_ends e he
  | .member object _, he => ⟨evalExpr_ends object he, .pure _⟩
  | .index object key, he => ⟨evalExpr_ends object he.1, evalExpr_ends key he.2⟩
  | .identifier _, _ | .number _, _ | .string _, _ | .boolean _, _ | .null, _ | .this, _ | .array _, _ | .object _, _
  | .function _, _ | .unary _ _, _ | .update _ _ _, _ | .binary _ _ _, _ | .logical _ _ _, _ | .assignment _ _ _, _
  | .conditional _ _ _, _ | .sequence _, _ | .call _ _, _ | .new _, _ => by
    rw [target.eq_def]
    trivial

theorem evalSequence_ends : ∀ es : List Expr, itemsPlain es → Ends (evalSequence h act es)
  | [], _ => .pure _
  | [e], he => evalExpr_ends e he.1
  | e :: e' :: es, he => by
    rw [evalSequence]
    · exact (evalExpr_ends e he.1).bind fun _ => evalSequence_ends (e' :: es) he.2
    · simp

theorem evalElements_ends (made : ObjectRef) : ∀ (es : List (Option Expr)) (i : Nat), elementsPlain es →
    Ends (evalElements h act made es i)
  | [], _, _ => .pure _
  | none :: es, i, he => evalElements_ends made es (i + 1) he
  | some e :: es, i, he =>
    (evalExpr_ends e he.1).bind fun _ => (Ends.perform _).bind fun _ => evalElements_ends made es (i + 1) he.2

theorem evalProperties_ends (made : ObjectRef) : ∀ ps : List (String × Expr), propertiesPlain ps →
    Ends (evalProperties h act made ps)
  | [], _ => .pure _
  | (name, e) :: ps, he =>
    (evalExpr_ends e he.1).bind fun _ => (Ends.perform _).bind fun _ => evalProperties_ends made ps he.2

end

end

end Meaning

end ScriptEngine
