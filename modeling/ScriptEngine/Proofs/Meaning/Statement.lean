/-
Statements and their completions. A statement ends normally, with a jump that
is still looking for its construct, with a return, or by raising something. A
finalizer runs once on every way out of its statement; when it ends normally
the statement goes on as it was about to, and otherwise the finalizer's own
way out counts.
-/
import ScriptEngine.Proofs.Meaning.Expression

namespace ScriptEngine.Meaning

open Realm Lowering

inductive Exit
  | normal
  | jumps (jump : JumpKind) (label : Option String)
  | returns (v : Value)

/-- Every way a statement can end: a normal end, a break, a continue, a return, or something
raised. -/
abbrev Completion := Except Raised Exit

abbrev Act := Activation → Eval Exit

namespace Exit

/-- The exit is a jump of this kind that refers to a construct. -/
def refersTo (jump : JumpKind) (labels : List String) (kind : BreakableKind) : Exit → Bool
  | .jumps j label => j == jump && jump.refersTo label labels kind
  | _ => false

/-- The round of a loop ended so that another one may follow. -/
def goesOn (labels : List String) (x : Exit) : Bool :=
  match x with
  | .normal => true
  | x => x.refersTo .continues labels .loop

end Exit

def andThen (first second : Eval Exit) : Eval Exit := do
  match ← first with
  | .normal => second
  | exit => return exit

/-- A construct ends normally when a break refers to it. -/
def breakable (labels : List String) (kind : BreakableKind) (x : Eval Exit) : Eval Exit := do
  let exit ← x
  return if exit.refersTo .breaks labels kind then .normal else exit

/-- What comes of a completion, which a handler sees as a value. -/
def completionOf (x : Eval Exit) : Eval Completion := fun W =>
  match x W with
  | some (.ok exit, W) => some (.ok (.ok exit), W)
  | some (.error e, W) =>
    match W.realm.exceptionValue e with
    | (some v, r) => some (.ok (.error (.thrown v)), { W with realm := r })
    | (none, r) => some (.error e, { W with realm := r })
  | none => none

def complete (c : Completion) : Eval Exit :=
  match c with
  | .ok exit => return exit
  | .error e => throw e

/-! ## Simple statements -/

def evalDeclarators (h : Host) (act : Activation) : List Declarator → Eval Unit
  | [] => return
  | ⟨_, none⟩ :: ds => evalDeclarators h act ds
  | ⟨id, some init⟩ :: ds => do
    writeName act id.name (← evalExpr h act init)
    evalDeclarators h act ds

/-- An expression statement: its value becomes the value of a script. -/
def evalEvaluation (h : Host) (e : Expr) : Act := fun act => do
  let v ← evalExpr h act e
  if act.keepsValue then modify fun W => { W with value := v }
  return .normal

def evalBranch (h : Host) (test : Expr) (consequent : Act) (alternate : Option Act) : Act := fun act => do
  if (← evalExpr h act test).toBoolean then consequent act
  else
    match alternate with
    | some alternate => alternate act
    | none => return .normal

/-! ## Loops -/

/-- What happens before the first round. A loop over keys finds them here. -/
def loopInit (h : Host) (head : LoopHead) (act : Activation) : Eval (List String) := do
  match head with
  | .counted (some (.declare ds)) _ _ =>
    evalDeclarators h act ds
    return []
  | .counted (some (.evaluate e)) _ _ =>
    let _ ← evalExpr h act e
    return []
  | .forIn target object =>
    match target with
    | .declare d => evalDeclarators h act [d]
    | .assign _ => pure ()
    let v ← evalExpr h act object
    perform (readStore fun s => s.loopKeys v)
  | _ => return []

/-- Whether another round follows; without a condition it always does. -/
def loopTest (h : Host) (head : LoopHead) (act : Activation) (keys : List String) : Eval Bool := do
  match head with
  | .counted _ (some test) _ | .whileTest test | .doWhile test => return (← evalExpr h act test).toBoolean
  | .counted _ none _ => return true
  | .forIn .. => return !keys.isEmpty

/-- A round of a loop over keys begins with the next key. -/
def loopKey (h : Host) (head : LoopHead) (act : Activation) (keys : List String) : Eval (List String) := do
  match head, keys with
  | .forIn (.declare d) _, key :: keys =>
    writeName act d.id.name (.string key)
    return keys
  | .forIn (.assign e) _, key :: keys =>
    assignValue h act e (.string key)
    return keys
  | _, _ => return keys

def loopUpdate (h : Host) (head : LoopHead) (act : Activation) : Eval Unit := do
  match head with
  | .counted _ _ (some update) =>
    let _ ← evalExpr h act update
    return
  | _ => return

def evalRounds (h : Host) (head : LoopHead) (labels : List String) (body : Act) (act : Activation) :
    Nat → List String → Eval Exit
  | 0, _ => outOfRounds
  | n + 1, keys => do
    let keys ← loopKey h head act keys
    let exit ← body act
    if exit.goesOn labels then
      loopUpdate h head act
      if ← loopTest h head act keys then evalRounds h head labels body act n keys
      else return .normal
    else return exit

def evalLoop (h : Host) (head : LoopHead) (labels : List String) (body : Act) : Act := fun act => do
  let keys ← loopInit h head act
  let first ← if testsLast head then pure true else loopTest h head act keys
  if first then breakable labels .loop (evalRounds h head labels body act h.rounds keys)
  else return .normal

/-! ## Switch -/

/-- Compares with every test in turn; gives the clauses from the first that agrees. -/
def selectClause (h : Host) (act : Activation) (v : Value) :
    List (Option Expr × Act) → Eval (Option (List (Option Expr × Act)))
  | [] => return none
  | (none, _) :: cs => selectClause h act v cs
  | (some test, body) :: cs => do
    let w ← evalExpr h act test
    if v.strictEquals w then return some ((some test, body) :: cs)
    else selectClause h act v cs

def defaultClause (cs : List (Option Expr × Act)) : List (Option Expr × Act) :=
  match cs with
  | [] => []
  | c :: cs => if c.1.isNone && !cs.any (·.1.isNone) then c :: cs else defaultClause cs

def runClauses (act : Activation) : List (Option Expr × Act) → Eval Exit
  | [] => return .normal
  | (_, body) :: cs => andThen (body act) (runClauses act cs)

def evalSwitch (h : Host) (discriminant : Expr) (labels : List String) (clauses : List (Option Expr × Act)) :
    Act := fun act => do
  let v ← evalExpr h act discriminant
  let selected ← selectClause h act v clauses
  breakable labels .switch (runClauses act (selected.getD (defaultClause clauses)))

/-! ## Exceptions and scopes -/

/-- Evaluates with one more record in front of the chain. -/
def inScope (record : Record) (body : Act) : Act := fun act => do
  let r ← perform (withStore fun s => s.addRecord record)
  body { act with chain := r :: act.chain }

/-- What was raised goes to the handler; everything else goes on as it is. -/
def handle (handler : Option (Identifier × Act)) (act : Activation) (c : Completion) : Eval Exit :=
  match handler, c with
  | some (param, body), .error (.thrown v) => inScope (.declarative #[param.name] #[v]) body act
  | _, c => complete c

/-- Runs the finalizer; a normal end of it leads to the completion that was pending. -/
def finalize (finalizer : Act) (act : Activation) (pending : Completion) : Eval Exit :=
  andThen (finalizer act) (complete pending)

def evalAttempt (block : Act) (handler : Option (Identifier × Act)) (finalizer : Option Act) : Act := fun act => do
  let handled : Eval Exit :=
    match handler with
    | some _ => do handle handler act (← completionOf (block act))
    | none => block act
  match finalizer with
  | some finalizer => finalize finalizer act (← completionOf handled)
  | none => handled

def evalScoped (h : Host) (object : Expr) (body : Act) : Act := fun act => do
  match ← evalExpr h act object with
  | .object r => inScope (.object r) body act
  | v => perform (do raise (.type (.withObject (← readStore fun s => s.text v))))

/-! ## Statements -/

def evalReturn (h : Host) (value : Option Expr) : Act := fun act => do
  match value with
  | some e => return .returns (← evalExpr h act e)
  | none => return .returns .undefined

def evalThrow (h : Host) (value : Expr) : Act := fun act => do throw (.thrown (← evalExpr h act value))

mutual

def evalStmt (h : Host) : Stmt → Act
  | ⟨labels, _, kind⟩ => fun act => breakable labels .labelled (evalKind h kind labels act)

def evalKind (h : Host) : StmtKind → List String → Act
  | .var ds, _ => fun act => do
    evalDeclarators h act ds
    return .normal
  | .function _, _ => fun _ => return .normal
  | .expression e, _ => evalEvaluation h e
  | .block body, _ => evalBody h body
  | .branch test consequent alternate, _ =>
    evalBranch h test (evalStmt h consequent) (evalAlternate h alternate)
  | .loop head body, labels => evalLoop h head labels (evalStmt h body)
  | .switch discriminant cases, labels => evalSwitch h discriminant labels (evalCases h cases)
  | .returns value, _ => evalReturn h value
  | .breaks label, _ => fun _ => return .jumps .breaks (label.map Identifier.name)
  | .continues label, _ => fun _ => return .jumps .continues (label.map Identifier.name)
  | .throws value, _ => evalThrow h value
  | .attempt block handler finalizer, _ =>
    evalAttempt (evalBody h block) (evalHandler h handler) (evalFinalizer h finalizer)
  | .scoped object body, _ => evalScoped h object (evalStmt h body)
  | .empty, _ => fun _ => return .normal

def evalAlternate (h : Host) : Option Stmt → Option Act
  | none => none
  | some s => some (evalStmt h s)

def evalHandler (h : Host) : Option CatchClause → Option (Identifier × Act)
  | none => none
  | some ⟨param, body⟩ => some (param, evalBody h body)

def evalFinalizer (h : Host) : Option (List Stmt) → Option Act
  | none => none
  | some body => some (evalBody h body)

def evalBody (h : Host) : List Stmt → Act
  | [], _ => return .normal
  | s :: ss, act => andThen (evalStmt h s act) (evalBody h ss act)

def evalCases (h : Host) : List SwitchCase → List (Option Expr × Act)
  | [] => []
  | ⟨test, body⟩ :: cs => (test, evalBody h body) :: evalCases h cs

end

end ScriptEngine.Meaning
