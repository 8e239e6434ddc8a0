/-
The nodes of a tree: names, expressions, functions, statements and lists of
statements. `Node.children` says which nodes hang directly on a node, through
declarators, clauses and loop heads, and `Below` which hang on it anywhere.
-/
import ScriptEngine.Tree.Basic

namespace ScriptEngine

/-- A part of a tree that has a position, or that positions are compared in. -/
inductive Node
  | identifier (id : Identifier)
  | expr (e : Expr)
  | function (f : FunctionTree)
  | stmt (s : Stmt)
  | body (ss : List Stmt)

/-! ## Children -/

@[grind =] def Expr.children : Expr → List Node
  | .number _ | .string _ | .boolean _ | .null | .this => []
  | .identifier id => [.identifier id]
  | .array elements => elements.flatMap fun e => e.toList.map .expr
  | .object properties => properties.map fun p => .expr p.2
  | .function f => [.function f]
  | .grouping e | .unary _ e | .update _ _ e | .new e => [.expr e]
  | .binary _ a b | .logical _ a b | .assignment _ a b | .index a b => [.expr a, .expr b]
  | .conditional a b c => [.expr a, .expr b, .expr c]
  | .sequence items => items.map .expr
  | .call callee arguments => .expr callee :: arguments.toList.map .expr
  | .member base property => [.expr base, .identifier property]

@[grind =] def FunctionTree.children (f : FunctionTree) : List Node :=
  f.id.toList.map .identifier ++ f.params.map .identifier ++ [.body f.body]

@[grind =] def Declarator.children (d : Declarator) : List Node := .identifier d.id :: d.init.toList.map .expr

@[grind =] def LoopInit.children : LoopInit → List Node
  | .declare ds => ds.flatMap Declarator.children
  | .evaluate e => [.expr e]

@[grind =] def KeyTarget.children : KeyTarget → List Node
  | .declare d => d.children
  | .assign e => [.expr e]

@[grind =] def LoopHead.children : LoopHead → List Node
  | .counted init test update => init.toList.flatMap LoopInit.children ++ test.toList.map .expr ++ update.toList.map .expr
  | .whileTest test | .doWhile test => [.expr test]
  | .forIn target object => target.children ++ [.expr object]

@[grind =] def SwitchCase.children (c : SwitchCase) : List Node := c.test.toList.map .expr ++ [.body c.body]

@[grind =] def CatchClause.children (c : CatchClause) : List Node := [.identifier c.param, .body c.body]

@[grind =] def StmtKind.children : StmtKind → List Node
  | .var ds => ds.flatMap Declarator.children
  | .function f => [.function f]
  | .expression e | .throws e => [.expr e]
  | .block ss => [.body ss]
  | .branch test consequent alternate => .expr test :: .stmt consequent :: alternate.toList.map .stmt
  | .loop head s => head.children ++ [.stmt s]
  | .switch discriminant cases => .expr discriminant :: cases.flatMap SwitchCase.children
  | .returns value => value.toList.map .expr
  | .breaks label | .continues label => label.toList.map .identifier
  | .attempt ss handler finalizer => .body ss :: handler.toList.flatMap CatchClause.children ++ finalizer.toList.map .body
  | .scoped object s => [.expr object, .stmt s]
  | .empty => []

namespace Node

def children : Node → List Node
  | .identifier _ => []
  | .expr e => e.children
  | .function f => f.children
  | .stmt s => s.kind.children
  | .body ss => ss.map .stmt

/-- The first node is the second one or hangs on it. -/
inductive Below : Node → Node → Prop
  | refl (x : Node) : Below x x
  | child {x y z : Node} : Below x y → y ∈ z.children → Below x z

theorem Below.trans {x y z : Node} (h : x.Below y) (h' : y.Below z) : x.Below z := by
  induction h' with
  | refl => exact h
  | child _ hmem ih => exact .child ih hmem

theorem below_iff {x z : Node} : x.Below z ↔ x = z ∨ ∃ y ∈ z.children, x.Below y := by
  constructor
  · intro h
    cases h with
    | refl => exact .inl rfl
    | child h hmem => exact .inr ⟨_, hmem, h⟩
  · rintro (rfl | ⟨y, hmem, h⟩)
    · exact .refl x
    · exact .child h hmem

theorem below_name (id : Identifier) : (Node.identifier id).Below (.expr (.identifier id)) :=
  .child (.refl _) (List.mem_singleton.2 rfl)

theorem below_item {items : List Expr} {e : Expr} (h : e ∈ items) : (Node.expr e).Below (.expr (.sequence items)) :=
  .child (.refl _) (List.mem_map_of_mem h)

end Node

end ScriptEngine
