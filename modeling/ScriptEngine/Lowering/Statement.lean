/-
Statements to code. The code of a statement leaves the operand stack as it
found it. Compound statements are put together from the code of their parts:
a part is given as a function of the context it is placed in.
-/
import ScriptEngine.Lowering.Expression
import ScriptEngine.Lowering.Jump

namespace ScriptEngine.Lowering

/-- Code that depends on where it stands. -/
abbrev Part := Context → Lowering Unit

def lowerDeclarators (inner : FunctionLowering) : List Declarator → Part
  | [], _ => return
  | ⟨_, none⟩ :: ds, ctx => lowerDeclarators inner ds ctx
  | ⟨id, some init⟩ :: ds, ctx => do
    lowerExpr inner ctx init
    store ctx id.name
    emit .pop
    lowerDeclarators inner ds ctx

/-- An expression statement: its value becomes the value of a script. -/
def lowerEvaluation (inner : FunctionLowering) (e : Expr) : Part := fun ctx => do
  lowerExpr inner ctx e
  match ctx.completion with
  | some completion => emitWith .storeLocal (.temporary completion)
  | none => emit .pop

def lowerBranch (inner : FunctionLowering) (test : Expr) (consequent : Part) (alternate : Option Part) :
    Part := fun ctx => do
  let otherwise ← newLabel
  lowerExpr inner ctx test
  emitJump .jumpIfFalse otherwise
  consequent ctx
  match alternate with
  | some alternate =>
    let done ← newLabel
    emitJump .jump done
    mark otherwise
    alternate ctx
    mark done
  | none => mark otherwise

/-! ## Loops -/

/-- What happens before the first round. The keys of a for-in loop go into the
temporary `keys`. -/
def lowerLoopInit (inner : FunctionLowering) (head : LoopHead) (keys : Nat) : Part := fun ctx => do
  match head with
  | .counted (some (.declare ds)) _ _ => lowerDeclarators inner ds ctx
  | .counted (some (.evaluate e)) _ _ =>
    lowerExpr inner ctx e
    emit .pop
  | .forIn target object =>
    match target with
    | .declare d => lowerDeclarators inner [d] ctx
    | .assign _ => pure ()
    lowerExpr inner ctx object
    emitWith .forInPrepare (.temporary keys)
  | _ => pure ()

/-- Pushes whether another round follows; without a condition it always does. -/
def lowerLoopCondition (inner : FunctionLowering) (head : LoopHead) (keys : Nat) : Part := fun ctx =>
  match head with
  | .counted _ (some test) _ | .whileTest test | .doWhile test => lowerExpr inner ctx test
  | .counted _ none _ => emit .loadTrue
  | .forIn .. => emitWith .forInHasNext (.temporary keys)

/-- Goes to `exit` when no round follows. -/
def lowerLoopTest (inner : FunctionLowering) (head : LoopHead) (keys : Nat) (exit : Label) : Part :=
  fun ctx => do
    match head with
    | .counted _ none _ => return
    | _ =>
      lowerLoopCondition inner head keys ctx
      emitJump .jumpIfFalse exit

/-- One round, up to where a `continue` goes on. -/
def lowerRound (inner : FunctionLowering) (head : LoopHead) (keys : Nat) (labels : List String)
    (body : Part) (breakTo continueTo : Label) : Part := fun ctx => do
  match head with
  | .forIn target _ =>
    emitWith .forInNext (.temporary keys)
    match target with
    | .declare d => store ctx d.id.name
    | .assign e => assignTop inner ctx e
    emit .pop
  | _ => pure ()
  body (ctx.within (.breakable labels .loop breakTo (some continueTo)))

def lowerLoopUpdate (inner : FunctionLowering) (head : LoopHead) : Part := fun ctx => do
  match head with
  | .counted _ _ (some update) =>
    lowerExpr inner ctx update
    emit .pop
  | _ => pure ()

/-- The test of the loop stands behind the body. -/
def testsLast : LoopHead → Bool
  | .doWhile _ => true
  | _ => false

/-- The first round stands before the loop proper, which then starts with its test. -/
def lowerRotatedLoop (inner : FunctionLowering) (head : LoopHead) (keys : Nat) (labels : List String)
    (body : Part) : Part := fun ctx => do
  let done ← newLabel
  let firstContinue ← newLabel
  unless testsLast head do lowerLoopTest inner head keys done ctx
  lowerRound inner head keys labels body done firstContinue ctx
  mark firstContinue
  lowerLoopUpdate inner head ctx
  let top ← newLabel
  let laterDone ← newLabel
  let laterContinue ← newLabel
  mark top
  lowerLoopTest inner head keys laterDone ctx
  lowerRound inner head keys labels body laterDone laterContinue ctx
  mark laterContinue
  lowerLoopUpdate inner head ctx
  emitJump .jump top
  mark laterDone
  mark done

/-- Every round runs the same code. -/
def lowerSimpleLoop (inner : FunctionLowering) (head : LoopHead) (keys : Nat) (labels : List String)
    (body : Part) : Part := fun ctx => do
  let top ← newLabel
  let start ← newLabel
  let next ← newLabel
  let done ← newLabel
  mark top
  unless testsLast head do lowerLoopTest inner head keys done ctx
  mark start
  lowerRound inner head keys labels body done next ctx
  mark next
  lowerLoopUpdate inner head ctx
  if testsLast head then
    lowerLoopCondition inner head keys ctx
    emitJump .jumpIfTrue start
  else emitJump .jump top
  mark done

def lowerLoop (inner : FunctionLowering) (head : LoopHead) (labels : List String) (body : Part) : Part :=
  fun ctx => do
    let keys ← match head with
      | .forIn .. => newTemporary
      | _ => pure 0
    lowerLoopInit inner head keys ctx
    if ctx.options.loopRotation then lowerRotatedLoop inner head keys labels body ctx
    else lowerSimpleLoop inner head keys labels body ctx

/-! ## Switch -/

/-- A clause of a switch with the label of its body. -/
structure Clause where
  test : Option Expr
  body : Part
  label : Label

def labelClauses (clauses : List (Option Expr × Part)) : Lowering (List Clause) :=
  clauses.mapM fun (test, body) => do return ⟨test, body, ← newLabel⟩

/-- Compares with every test in turn and jumps to the first clause that agrees. -/
def lowerClauseTests (inner : FunctionLowering) (ctx : Context) (discriminant : Nat) :
    List Clause → Lowering Unit
  | [] => return
  | ⟨none, _, _⟩ :: cs => lowerClauseTests inner ctx discriminant cs
  | ⟨some test, _, label⟩ :: cs => do
    emitWith .loadLocal (.temporary discriminant)
    lowerExpr inner ctx test
    emit .strictEq
    emitJump .jumpIfTrue label
    lowerClauseTests inner ctx discriminant cs

/-- The bodies follow each other, so that one falls into the next. -/
def lowerClauseBodies (ctx : Context) : List Clause → Lowering Unit
  | [] => return
  | ⟨_, body, label⟩ :: cs => do
    mark label
    body ctx
    lowerClauseBodies ctx cs

def lowerSwitch (inner : FunctionLowering) (discriminant : Expr) (labels : List String)
    (clauses : List (Option Expr × Part)) : Part := fun ctx => do
  let value ← newTemporary
  lowerExpr inner ctx discriminant
  emitWith .storeLocal (.temporary value)
  let done ← newLabel
  let clauses ← labelClauses clauses
  lowerClauseTests inner ctx value clauses
  let default := (clauses.reverse.find? fun c => c.test.isNone).map Clause.label
  emitJump .jump (default.getD done)
  lowerClauseBodies (ctx.within (.breakable labels .switch done none)) clauses
  mark done

/-! ## Exceptions and scopes -/

/-- Binds the exception on the stack in a scope of its own and runs the handler in it. -/
def lowerCatch (param : Identifier) (body : Part) : Part := fun ctx => do
  let scope ← bindingScope ctx.scope .catchClause param
  emitWith .pushCatchScope (.property (← stringConstant param.name))
  body (ctx.inScope scope)
  emit .popScope

/-- The finalizer is written out on every way out of the statement; an exception
that nothing caught waits in a temporary while it runs. -/
def lowerAttempt (block : Part) (handler : Option (Identifier × Part)) (finalizer : Option Part) :
    Part := fun ctx => do
  let region := ctx.within (.attempt (finalizer.map fun f => f ctx))
  let done ← newLabel
  let rethrow ← newLabel
  let caught ← newLabel
  emitJump .enterTry (if handler.isSome then caught else rethrow)
  block region
  emit .leaveTry
  let after ← newLabel
  emitJump .jump after
  match handler with
  | some (param, body) =>
    mark caught
    if finalizer.isSome then
      emitJump .enterTry rethrow
      lowerCatch param body region
      emit .leaveTry
    else lowerCatch param body ctx
  | none => pure ()
  mark after
  match finalizer with
  | some finalizer =>
    finalizer ctx
    emitJump .jump done
    mark rethrow
    let exception ← newTemporary
    emitWith .storeLocal (.temporary exception)
    finalizer ctx
    emitWith .loadLocal (.temporary exception)
    emit .throwValue
  | none => pure ()
  mark done

def lowerScoped (inner : FunctionLowering) (object : Expr) (body : Part) : Part := fun ctx => do
  lowerExpr inner ctx object
  emit .pushWithScope
  let scope ← withScope ctx.scope
  body (ctx.inScope scope)
  emit .popScope

/-! ## Statements -/

def lowerReturn (inner : FunctionLowering) (value : Option Expr) : Part := fun ctx => do
  unless ctx.kind == .function do throw (.source .illegalReturn)
  match value with
  | some e => lowerExpr inner ctx e
  | none => emit .loadUndefined
  returnTop ctx

def lowerThrow (inner : FunctionLowering) (value : Expr) : Part := fun ctx => do
  lowerExpr inner ctx value
  emit .throwValue

/-- A statement under its labels, checked to leave the stack as it was. -/
def lowerLabelled (labels : List String) (span : Span) (statement : Part) : Part := fun ctx => do
  let before ← stackDepth
  if labels.isEmpty then statement ctx
  else
    let exit ← newLabel
    statement (ctx.within (.breakable labels .labelled exit none))
    mark exit
  let after ← stackDepth
  if ctx.options.checkBalance && after != before then
    throw (.internal (.unbalanced span after before))

mutual

def lowerStmt (inner : FunctionLowering) : Stmt → Part
  | ⟨labels, span, kind⟩ => lowerLabelled labels span (lowerKind inner kind labels)

def lowerKind (inner : FunctionLowering) : StmtKind → List String → Part
  | .var ds, _ => lowerDeclarators inner ds
  | .function _, _ => fun _ => return
  | .expression e, _ => lowerEvaluation inner e
  | .block body, _ => lowerBody inner body
  | .branch test consequent alternate, _ =>
    lowerBranch inner test (lowerStmt inner consequent) (lowerAlternate inner alternate)
  | .loop head body, labels => lowerLoop inner head labels (lowerStmt inner body)
  | .switch discriminant cases, labels => lowerSwitch inner discriminant labels (lowerCases inner cases)
  | .returns value, _ => lowerReturn inner value
  | .breaks label, _ => lowerJump .breaks (label.map Identifier.name)
  | .continues label, _ => lowerJump .continues (label.map Identifier.name)
  | .throws value, _ => lowerThrow inner value
  | .attempt block handler finalizer, _ =>
    lowerAttempt (lowerBody inner block) (lowerHandler inner handler) (lowerFinalizer inner finalizer)
  | .scoped object body, _ => lowerScoped inner object (lowerStmt inner body)
  | .empty, _ => fun _ => return

def lowerAlternate (inner : FunctionLowering) : Option Stmt → Option Part
  | none => none
  | some s => some (lowerStmt inner s)

def lowerHandler (inner : FunctionLowering) : Option CatchClause → Option (Identifier × Part)
  | none => none
  | some ⟨param, body⟩ => some (param, lowerBody inner body)

def lowerFinalizer (inner : FunctionLowering) : Option (List Stmt) → Option Part
  | none => none
  | some body => some (lowerBody inner body)

def lowerBody (inner : FunctionLowering) : List Stmt → Part
  | [], _ => return
  | s :: ss, ctx => do
    lowerStmt inner s ctx
    lowerBody inner ss ctx

def lowerCases (inner : FunctionLowering) : List SwitchCase → List (Option Expr × Part)
  | [] => []
  | ⟨test, body⟩ :: cs => (test, lowerBody inner body) :: lowerCases inner cs

end

end ScriptEngine.Lowering
