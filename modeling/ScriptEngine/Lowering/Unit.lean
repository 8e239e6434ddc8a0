/-
Units: scripts, the code given to `eval`, and functions. A unit declares all
its names first, fills those that are functions, and then runs its body.
Main definitions: `compile` and `compileEval`.
-/
import ScriptEngine.Lowering.Statement
import ScriptEngine.Scope.Analysis

namespace ScriptEngine.Lowering

/-- What is fixed about a unit before its body is lowered. -/
structure UnitHead where
  options : LoweringOptions
  kind : UnitKind
  name : Option String
  params : List String
  /-- The scope that holds the unit's declarations. -/
  root : ScopeRef
  strict : Bool
  bindsOwnName : Bool

/-- The scopes with the names of a unit declared; functions are numbered in order. -/
def declareAll (root : ScopeRef) (ds : Array Declaration) (scopes : ScopeArena) : ScopeArena :=
  (ds.foldl (fun (next, scopes) d =>
    match d.function with
    | some _ => (next + 1, (scopes.declareIn root d.id.name (some next) d.id.span).2)
    | none => (next, (scopes.declareIn root d.id.name none d.id.span).2)) (0, scopes)).2

/-- The variables that hold a function on entry, with their functions. -/
def initialFunctions (ds : Array Declaration) (entries : Array Variable) :
    List (String × FunctionTree) :=
  let functions := ds.filterMap Declaration.function
  entries.toList.filterMap fun v => do
    let f ← functions[← v.initializer]?
    return (v.name, f)

/-- Stores closures of the declared functions. -/
def fillFunctions (inner : FunctionLowering) (ctx : Context) :
    List (String × FunctionTree) → Lowering Unit
  | [] => return
  | (name, f) :: fs => do
    pushClosure inner ctx f false
    store ctx name
    emit .pop
    fillFunctions inner ctx fs

/-- The context at the start of a unit. Scripts keep their value in the first temporary. -/
def UnitHead.context (h : UnitHead) : Context :=
  { options := h.options
    kind := h.kind
    scope := h.root
    strict := h.strict
    completion := if h.kind == .function then none else some 0
    regions := [] }

/-- The code of a unit's body, from entry to return. -/
def lowerEntry (inner : FunctionLowering) (ctx : Context) (functions : List (String × FunctionTree))
    (body : List Stmt) : Lowering Unit := do
  fillFunctions inner ctx functions
  lowerBody inner body ctx
  match ctx.completion with
  | some completion => emitWith .loadLocal (.temporary completion)
  | none => emit .loadUndefined
  emit .ret

def lowerUnit (inner : FunctionLowering) (h : UnitHead) (body : List Stmt) :
    StateT ScopeArena (Except Fault) CodeUnit := fun scopes => do
  let ds := declarations body
  let scopes := declareAll h.root ds scopes
  let functions := initialFunctions ds (scopes.get h.root).bindings.entries
  let ctx := h.context
  let builder := { Builder.empty with temporaries := if ctx.completion.isSome then 1 else 0 }
  let (_, ⟨scopes, builder⟩) ← lowerEntry inner ctx functions body ⟨scopes, builder⟩
  let scope := scopes.get h.root
  let instructions ← builder.finish
  let unit : CodeUnit :=
    { name := h.name
      kind := h.kind
      params := h.params
      storage := scope.storage
      bindings := scope.bindings.names
      instructions
      constants := builder.constants
      functions := builder.functions
      temporaries := builder.temporaries
      strict := h.strict
      bindsOwnName := h.bindsOwnName
      slotNames := builder.slotNames }
  .ok (unit, scopes)

/-- The scope around a function: a named function expression sees its own name in
a scope of its own. -/
def ownNameScope (f : FunctionTree) (isExpression : Bool) (parent : ScopeRef) (scopes : ScopeArena) :
    Except Fault (Option ScopeRef × ScopeArena) :=
  match f.id with
  | some id =>
    if isExpression then do
      let (s, scopes) := scopes.push (some parent) .callee .static
      let (_, scopes) ← scopes.declareCatch s id.name id.span
      .ok (some s, scopes)
    else .ok (none, scopes)
  | none => .ok (none, scopes)

/-- Functions nested at most `n` deep. -/
def lowerFunction (options : LoweringOptions) : Nat → FunctionLowering
  | 0 => fun _ _ _ _ _ => .error (.internal .exhausted)
  | n + 1 => fun f isExpression parent strict scopes => do
    let (own, scopes) ← ownNameScope f isExpression parent scopes
    let (root, scopes) := scopes.push (some (own.getD parent)) .function (storageOf f.body)
    let scopes := f.params.foldl (fun scopes p => (scopes.declareIn root p.name none p.span).2) scopes
    let head : UnitHead :=
      { options
        kind := .function
        name := f.id.map Identifier.name
        params := f.params.map Identifier.name
        root
        strict := strict || hasUseStrict f.body
        bindsOwnName := own.isSome }
    lowerUnit (lowerFunction options n) head f.body scopes

/-- A unit with a scope of its own at the outermost level. -/
def lowerProgram (options : LoweringOptions) (kind : UnitKind) (scopeKind : ScopeKind) (strict : Bool)
    (p : Program) : Except Fault CodeUnit := do
  let (root, scopes) := ScopeArena.empty.push none scopeKind .dynamic
  let head : UnitHead :=
    { options
      kind
      name := none
      params := []
      root
      strict := strict || options.isStrict || hasUseStrict p.body
      bindsOwnName := false }
  let (unit, _) ← lowerUnit (lowerFunction options (bodyNesting p.body 0)) head p.body scopes
  return unit

end Lowering

/-- The code of a script. -/
def compile (options : LoweringOptions) (p : Program) : Except Fault CodeUnit :=
  Lowering.lowerProgram options .global .global false p

/-- The code for a program given to `eval`, called from code that is strict or not. -/
def compileEval (options : LoweringOptions) (strict : Bool) (p : Program) : Except Fault CodeUnit :=
  Lowering.lowerProgram options .eval .eval strict p

end ScriptEngine
