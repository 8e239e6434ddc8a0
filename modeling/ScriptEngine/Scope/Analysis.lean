/-
What a function body declares and needs: whether its variables must be
looked up by name, the declarations its entry makes, its directive prologue,
and how deeply functions nest in it.
-/
import ScriptEngine.Tree.Basic
import ScriptEngine.Code.CodeUnit

namespace ScriptEngine

/-! ## Storage -/

mutual

/-- The expression calls `eval` by name outside nested functions. -/
def Expr.isDynamic : Expr → Bool
  | .number _ => false
  | .string _ => false
  | .boolean _ => false
  | .null => false
  | .identifier _ => false
  | .this => false
  | .array elements => elementsDynamic elements
  | .object properties => propertiesDynamic properties
  | .function _ => false
  | .grouping e => e.isDynamic
  | .unary _ e => e.isDynamic
  | .update _ _ e => e.isDynamic
  | .binary _ l r => l.isDynamic || r.isDynamic
  | .logical _ l r => l.isDynamic || r.isDynamic
  | .assignment _ l r => l.isDynamic || r.isDynamic
  | .conditional test a b => test.isDynamic || a.isDynamic || b.isDynamic
  | .sequence items => itemsDynamic items
  | .call callee arguments => callee.callsEval || callee.isDynamic || optionIsDynamic arguments
  | .member e _ => e.isDynamic
  | .index l r => l.isDynamic || r.isDynamic
  | .new e => e.isDynamic

def optionIsDynamic : Option Expr → Bool
  | none => false
  | some e => e.isDynamic

def elementsDynamic : List (Option Expr) → Bool
  | [] => false
  | e :: es => optionIsDynamic e || elementsDynamic es

def propertiesDynamic : List (String × Expr) → Bool
  | [] => false
  | (_, e) :: ps => e.isDynamic || propertiesDynamic ps

def itemsDynamic : List Expr → Bool
  | [] => false
  | e :: es => e.isDynamic || itemsDynamic es

end

def Declarator.isDynamic (d : Declarator) : Bool := optionIsDynamic d.init

def LoopInit.isDynamic : LoopInit → Bool
  | .declare ds => ds.any Declarator.isDynamic
  | .evaluate e => e.isDynamic

def KeyTarget.isDynamic : KeyTarget → Bool
  | .declare d => d.isDynamic
  | .assign e => e.isDynamic

def LoopHead.isDynamic : LoopHead → Bool
  | .counted init test update => init.any LoopInit.isDynamic || optionIsDynamic test || optionIsDynamic update
  | .whileTest test => test.isDynamic
  | .doWhile test => test.isDynamic
  | .forIn target object => target.isDynamic || object.isDynamic

mutual

/-- The statement holds a `with` or calls `eval` by name outside nested functions. -/
def Stmt.isDynamic : Stmt → Bool
  | ⟨_, _, kind⟩ => kind.isDynamic

def StmtKind.isDynamic : StmtKind → Bool
  | .var ds => ds.any Declarator.isDynamic
  | .function _ => false
  | .expression e => e.isDynamic
  | .block body => bodyIsDynamic body
  | .branch test consequent alternate =>
    test.isDynamic || consequent.isDynamic || alternateDynamic alternate
  | .loop head body => head.isDynamic || body.isDynamic
  | .switch discriminant cases => discriminant.isDynamic || casesDynamic cases
  | .returns value => optionIsDynamic value
  | .breaks _ => false
  | .continues _ => false
  | .throws value => value.isDynamic
  | .attempt block handler finalizer =>
    bodyIsDynamic block || handlerDynamic handler || finalizerDynamic finalizer
  | .scoped _ _ => true
  | .empty => false

def alternateDynamic : Option Stmt → Bool
  | none => false
  | some s => s.isDynamic

def handlerDynamic : Option CatchClause → Bool
  | none => false
  | some ⟨_, body⟩ => bodyIsDynamic body

def finalizerDynamic : Option (List Stmt) → Bool
  | none => false
  | some body => bodyIsDynamic body

def bodyIsDynamic : List Stmt → Bool
  | [] => false
  | s :: ss => s.isDynamic || bodyIsDynamic ss

def casesDynamic : List SwitchCase → Bool
  | [] => false
  | ⟨test, body⟩ :: cs => optionIsDynamic test || bodyIsDynamic body || casesDynamic cs

end

/-- How the variables of a function with this body are stored. -/
def storageOf (body : List Stmt) : Storage := if bodyIsDynamic body then .dynamic else .static

/-! ## Declarations -/

/-- A name that the entry of a unit declares. -/
structure Declaration where
  id : Identifier
  function : Option FunctionTree

def Declarator.declaration (d : Declarator) : Declaration := ⟨d.id, none⟩

/-- A function declares its name. -/
def FunctionTree.declaration (f : FunctionTree) : List Declaration :=
  match f.id with
  | some id => [⟨id, some f⟩]
  | none => []

def LoopHead.declarations : LoopHead → List Declaration
  | .counted (some (.declare ds)) _ _ => ds.map Declarator.declaration
  | .forIn (.declare d) _ => [d.declaration]
  | _ => []

mutual

/-- The declarations of a statement in textual order, added to those before it.
Nested functions keep theirs. -/
def Stmt.hoist : Stmt → Array Declaration → Array Declaration
  | ⟨_, _, kind⟩, before => kind.hoist before

def StmtKind.hoist : StmtKind → Array Declaration → Array Declaration
  | .var ds, before => before ++ ds.map Declarator.declaration
  | .function f, before => before ++ f.declaration
  | .expression _, before => before
  | .block body, before => hoistAll body before
  | .branch _ consequent alternate, before => hoistAlternate alternate (consequent.hoist before)
  | .loop head body, before => body.hoist (before ++ head.declarations)
  | .switch _ cases, before => hoistCases cases before
  | .returns _, before => before
  | .breaks _, before => before
  | .continues _, before => before
  | .throws _, before => before
  | .attempt block handler finalizer, before =>
    hoistFinalizer finalizer (hoistHandler handler (hoistAll block before))
  | .scoped _ body, before => body.hoist before
  | .empty, before => before

def hoistAlternate : Option Stmt → Array Declaration → Array Declaration
  | none, before => before
  | some s, before => s.hoist before

def hoistHandler : Option CatchClause → Array Declaration → Array Declaration
  | none, before => before
  | some ⟨_, body⟩, before => hoistAll body before

def hoistFinalizer : Option (List Stmt) → Array Declaration → Array Declaration
  | none, before => before
  | some body, before => hoistAll body before

def hoistAll : List Stmt → Array Declaration → Array Declaration
  | [], before => before
  | s :: ss, before => hoistAll ss (s.hoist before)

def hoistCases : List SwitchCase → Array Declaration → Array Declaration
  | [], before => before
  | ⟨_, body⟩ :: cs, before => hoistCases cs (hoistAll body before)

end

/-- The declarations of a body. -/
def declarations (body : List Stmt) : Array Declaration := hoistAll body #[]

/-! ## Directives -/

/-- The body begins with string statements, one of which is `use strict`. -/
def hasUseStrict : List Stmt → Bool
  | ⟨_, _, .expression (.string s)⟩ :: ss => s == "use strict" || hasUseStrict ss
  | _ => false

/-! ## Nesting of functions -/

mutual

/-- How many functions stand inside each other at the most. -/
def Expr.nesting : Expr → Nat
  | .number _ => 0
  | .string _ => 0
  | .boolean _ => 0
  | .null => 0
  | .identifier _ => 0
  | .this => 0
  | .array elements => elementsNesting elements 0
  | .object properties => propertiesNesting properties 0
  | .function f => f.nesting
  | .grouping e => e.nesting
  | .unary _ e => e.nesting
  | .update _ _ e => e.nesting
  | .binary _ l r => max l.nesting r.nesting
  | .logical _ l r => max l.nesting r.nesting
  | .assignment _ l r => max l.nesting r.nesting
  | .conditional test a b => max test.nesting (max a.nesting b.nesting)
  | .sequence items => itemsNesting items 0
  | .call callee arguments => max callee.nesting (optionNesting arguments)
  | .member e _ => e.nesting
  | .index l r => max l.nesting r.nesting
  | .new e => e.nesting

def FunctionTree.nesting : FunctionTree → Nat
  | ⟨_, _, body, _⟩ => bodyNesting body 0 + 1

def optionNesting : Option Expr → Nat
  | none => 0
  | some e => e.nesting

/-- The lists take the deepest nesting met before them. -/
def elementsNesting : List (Option Expr) → Nat → Nat
  | [], deepest => deepest
  | e :: es, deepest => elementsNesting es (max deepest (optionNesting e))

def propertiesNesting : List (String × Expr) → Nat → Nat
  | [], deepest => deepest
  | (_, e) :: ps, deepest => propertiesNesting ps (max deepest e.nesting)

def itemsNesting : List Expr → Nat → Nat
  | [], deepest => deepest
  | e :: es, deepest => itemsNesting es (max deepest e.nesting)

def Declarator.nesting : Declarator → Nat
  | ⟨_, init⟩ => optionNesting init

def declaratorsNesting : List Declarator → Nat → Nat
  | [], deepest => deepest
  | d :: ds, deepest => declaratorsNesting ds (max deepest d.nesting)

def LoopInit.nesting : LoopInit → Nat
  | .declare ds => declaratorsNesting ds 0
  | .evaluate e => e.nesting

def loopInitNesting : Option LoopInit → Nat
  | none => 0
  | some init => init.nesting

def KeyTarget.nesting : KeyTarget → Nat
  | .declare d => d.nesting
  | .assign e => e.nesting

def LoopHead.nesting : LoopHead → Nat
  | .counted init test update =>
    max (loopInitNesting init) (max (optionNesting test) (optionNesting update))
  | .whileTest test => test.nesting
  | .doWhile test => test.nesting
  | .forIn target object => max target.nesting object.nesting

def Stmt.nesting : Stmt → Nat
  | ⟨_, _, kind⟩ => kind.nesting

def StmtKind.nesting : StmtKind → Nat
  | .var ds => declaratorsNesting ds 0
  | .function f => f.nesting
  | .expression e => e.nesting
  | .block body => bodyNesting body 0
  | .branch test consequent alternate =>
    max test.nesting (max consequent.nesting (alternateNesting alternate))
  | .loop head body => max head.nesting body.nesting
  | .switch discriminant cases => max discriminant.nesting (casesNesting cases 0)
  | .returns value => optionNesting value
  | .breaks _ => 0
  | .continues _ => 0
  | .throws value => value.nesting
  | .attempt block handler finalizer =>
    max (bodyNesting block 0) (max (handlerNesting handler) (finalizerNesting finalizer))
  | .scoped object body => max object.nesting body.nesting
  | .empty => 0

def alternateNesting : Option Stmt → Nat
  | none => 0
  | some s => s.nesting

def handlerNesting : Option CatchClause → Nat
  | none => 0
  | some ⟨_, body⟩ => bodyNesting body 0

def finalizerNesting : Option (List Stmt) → Nat
  | none => 0
  | some body => bodyNesting body 0

def bodyNesting : List Stmt → Nat → Nat
  | [], deepest => deepest
  | s :: ss, deepest => bodyNesting ss (max deepest s.nesting)

def casesNesting : List SwitchCase → Nat → Nat
  | [], deepest => deepest
  | ⟨test, body⟩ :: cs, deepest =>
    casesNesting cs (max (bodyNesting body deepest) (optionNesting test))

end

end ScriptEngine
