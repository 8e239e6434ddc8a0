/-
How the code of a finished unit is laid out. A layout says that the
instructions between two points of a unit are those of some piece of a program;
labels are positions here and slots are resolved in an environment. Main
definitions: `exprAt`, `stmtAt` and `entryAt`.
-/
import ScriptEngine.Proofs.Scope.Environment

namespace ScriptEngine

/-- The code of a function as it was lowered somewhere, seen from an environment. -/
def Lowered (o : LoweringOptions) (env : Env) (src : Meaning.Source) (u : CodeUnit) : Prop :=
  ∃ n a s a', ScopeArena.Sees a s env ∧
    Lowering.lowerFunction o n src.tree src.isExpression s src.strict a = .ok (u, a')

def CodeUnit.OfFunction (u : CodeUnit) : Prop := ∃ o env src, Lowered o env src u

/-- The pool of a unit holds the code of functions, and the unit makes closures of all of them. -/
def CodeUnit.Closes (u : CodeUnit) : Prop :=
  ∀ (k : Nat) v, u.functions[k]? = some v → v.OfFunction ∧
    ∃ p : Nat, u.instructions[p]? = some ⟨.closure, some (.function k)⟩

theorem CodeUnit.Closes.ofFunction {u v : CodeUnit} (h : u.Closes) (hv : v ∈ u.functions) : v.OfFunction := by
  obtain ⟨k, hk⟩ := Array.getElem?_of_mem hv
  exact (h k v hk).1

namespace Layout

open Lowering (BreakableKind JumpKind binaryOpcode testsLast)

/-- A place in the code, and the number of temporaries that are taken there. -/
structure Point where
  pc : Nat
  temps : Nat

def Code := Point → Point → Prop

namespace Code

def nil : Code := fun a b => a = b

def never : Code := fun _ _ => False

def seq (x y : Code) : Code := fun a b => ∃ m, x a m ∧ a.temps ≤ m.temps ∧ y m b

instance : Append Code := ⟨seq⟩

theorem seq_left {x x' y : Code} (h : ∀ p q, x p q → x' p q) {p q : Point} : (x ++ y) p q → (x' ++ y) p q :=
  fun ⟨m, hx, hm, hy⟩ => ⟨m, h _ _ hx, hm, hy⟩

theorem seq_right {x y y' : Code} (h : ∀ p q, y p q → y' p q) {p q : Point} : (x ++ y) p q → (x ++ y') p q :=
  fun ⟨m, hx, hm, hy⟩ => ⟨m, hx, hm, h _ _ hy⟩

def op (u : CodeUnit) (i : Instruction) : Code := fun a b =>
  u.instructions[a.pc]? = some i ∧ b = ⟨a.pc + 1, a.temps⟩

def mark (p : Nat) : Code := fun a b => a = b ∧ a.pc = p

def label (k : Nat → Code) : Code := fun a b => ∃ p, k p a b

def temporary (k : Nat → Code) : Code := fun a b => k a.temps ⟨a.pc, a.temps + 1⟩ b

end Code

inductive Region
  | breakable (labels : List String) (kind : BreakableKind) (breakTo : Nat) (continueTo : Option Nat)
  | attempt (finalizer : Option Code)
  | scope

structure Setting where
  unit : CodeUnit
  options : LoweringOptions
  env : Env
  strict : Bool
  completion : Option Nat
  regions : List Region

namespace Setting

def within (c : Setting) (r : Region) : Setting := { c with regions := r :: c.regions }

def inScope (c : Setting) (env : Env) : Setting := { c with env, regions := .scope :: c.regions }

def among (c : Setting) (rs : List Region) : Setting := { c with regions := rs }

end Setting

/-! ## Instructions -/

variable (c : Setting)

def emit (op : Opcode) : Code := Code.op c.unit ⟨op, none⟩

def emitWith (op : Opcode) (operand : Operand) : Code := Code.op c.unit ⟨op, some operand⟩

def jump (op : Opcode) (p : Nat) : Code := emitWith c op (.target p)

def constant (v : Value) : Code := fun a b =>
  ∃ k, c.unit.constants[k]? = some v ∧ emitWith c .loadConst (.constant k) a b

def named (op : Opcode) (name : String) : Code := fun a b =>
  ∃ k, c.unit.constants[k]? = some (.string name) ∧ emitWith c op (.property k) a b

/-- An instruction on the slot that a name stands for. -/
def slot (op : Opcode) (name : String) (depth index : Nat) : Code := fun a b =>
  c.unit.slotNames[a.pc]? = some name ∧ emitWith c op (.slot depth index) a b

/-- The false that deleting a variable with a slot yields. -/
def kept (name : String) : Code := fun a b => c.unit.slotNames[a.pc]? = some name ∧ emit c .loadFalse a b

/-- A truth value that is written down; it has nothing to do with any name. -/
def boolean (v : Bool) : Code := fun a b =>
  c.unit.slotNames[a.pc]? = none ∧ emit c (if v then .loadTrue else .loadFalse) a b

def load (name : String) : Code :=
  match c.env.resolve name with
  | .slot depth index => slot c .loadSlot name depth index
  | .byName => named c .loadName name

def store (name : String) : Code :=
  match c.env.resolve name with
  | .slot depth index => slot c .storeSlot name depth index
  | .byName => named c (if c.strict then .storeNameStrict else .storeName) name

def closure (src : Meaning.Source) : Code := fun a b =>
  ∃ k u, c.unit.functions[k]? = some u ∧ Lowered c.options c.env src u ∧
    emitWith c .closure (.function k) a b

/-! ## Expressions -/

/-- What an expression refers to when it is assigned to, called or deleted. -/
inductive Reference
  | name (name : String)
  | property (object key : Code)
  | value

def typeofAt (r : Reference) (value : Code) : Code :=
  (match r with
  | .name name =>
    match c.env.resolve name with
    | .slot .. => load c name
    | .byName => named c .loadNameOrUndefined name
  | _ => value) ++ emit c .typeOf

def deleteAt (r : Reference) (value : Code) : Code :=
  match r with
  | .name name =>
    match c.env.resolve name with
    | .slot .. => kept c name
    | .byName => named c .deleteName name
  | .property object key => object ++ (key ++ emit c .deleteProperty)
  | .value => value ++ (emit c .pop ++ emit c .loadTrue)

def stepOpcode : UpdateOp → Opcode
  | .increment => .add
  | .decrement => .sub

/-- `++` and `--` with the code that pushes the number one. -/
def updateWith (one : Code) (op : UpdateOp) (before : Bool) (r : Reference) : Code :=
  match r with
  | .name name =>
    if before then load c name ++ (emit c .toNumber ++ (one ++ (emit c (stepOpcode op) ++ store c name)))
    else
      load c name ++ (emit c .toNumber ++ (emit c .dup ++ (one ++ (emit c (stepOpcode op) ++
        (store c name ++ emit c .pop)))))
  | .property object key =>
    if before then
      object ++ (key ++ (emit c .dup2 ++ (emit c .getProperty ++ (emit c .toNumber ++
        (one ++ (emit c (stepOpcode op) ++ emit c .setProperty))))))
    else
      object ++ (key ++ (emit c .dup2 ++ (emit c .getProperty ++ (emit c .toNumber ++
        Code.temporary fun old => emit c .dup ++ (emitWith c .storeLocal (.temporary old) ++
          (one ++ (emit c (stepOpcode op) ++ (emit c .setProperty ++ (emit c .pop ++
            emitWith c .loadLocal (.temporary old))))))))))
  | .value => .never

theorem updateWith_mono {one one' : Code} (h : ∀ p q, one p q → one' p q) (op before r) {p q : Point} :
    updateWith c one op before r p q → updateWith c one' op before r p q := by
  have hs : ∀ {D : Code} (p q), (one ++ D) p q → (one' ++ D) p q := fun _ _ => Code.seq_left h
  cases r with
  | name name =>
    cases before with
    | true => exact Code.seq_right fun _ _ => Code.seq_right hs
    | false => exact Code.seq_right fun _ _ => Code.seq_right fun _ _ => Code.seq_right hs
  | property object key =>
    cases before with
    | true =>
      exact Code.seq_right fun _ _ => Code.seq_right fun _ _ => Code.seq_right fun _ _ =>
        Code.seq_right fun _ _ => Code.seq_right hs
    | false =>
      exact Code.seq_right fun _ _ => Code.seq_right fun _ _ => Code.seq_right fun _ _ =>
        Code.seq_right fun _ _ => Code.seq_right fun _ _ => Code.seq_right fun _ _ => Code.seq_right hs
  | value => exact fun h => h

def updateAt : UpdateOp → Bool → Reference → Code := updateWith c (constant c (Meaning.literal 1.0))

def assignmentAt (op : Option BinaryOp) (r : Reference) (value : Code) : Code :=
  match r with
  | .name name =>
    match op with
    | some op => load c name ++ (value ++ (emit c (binaryOpcode op) ++ store c name))
    | none => value ++ store c name
  | .property object key =>
    match op with
    | some op =>
      object ++ (key ++ (emit c .dup2 ++ (emit c .getProperty ++ (value ++ (emit c (binaryOpcode op) ++
        emit c .setProperty)))))
    | none => object ++ (key ++ (value ++ emit c .setProperty))
  | .value => .never

def calleeAt (r : Reference) (value : Code) : Code :=
  match r with
  | .name name =>
    match c.env.resolve name with
    | .slot .. => load c name ++ emit c .loadUndefined
    | .byName => named c .loadNameWithThis name
  | .property object key => object ++ (emit c .dup ++ (key ++ (emit c .getProperty ++ emit c .swap)))
  | .value => value ++ emit c .loadUndefined

def callAt (op : Opcode) (n : Nat) (description : String) : Code := fun a b =>
  ∃ k, c.unit.constants[k]? = some (.string description) ∧ emitWith c op (.call n k) a b

mutual

def exprAt : Expr → Code
  | .number n => constant c (Meaning.literal n)
  | .string s => constant c (.string s)
  | .boolean b => boolean c b
  | .null => emit c .loadNull
  | .identifier id => load c id.name
  | .this => emit c .loadThis
  | .array elements => emitWith c .newArray (.count elements.length) ++ elementsAt elements 0
  | .object properties => emit c .newObject ++ propertiesAt properties
  | .function f => closure c ⟨f, true, c.strict⟩
  | .grouping e => exprAt e
  | .unary .typeof e => typeofAt c (referenceAt e) (exprAt e)
  | .unary .delete e => deleteAt c (referenceAt e) (exprAt e)
  | .unary .void e => exprAt e ++ (emit c .pop ++ emit c .loadUndefined)
  | .unary .minus e => exprAt e ++ emit c .neg
  | .unary .plus e => exprAt e ++ emit c .toNumber
  | .unary .logicalNot e => exprAt e ++ emit c .not
  | .unary .bitwiseNot e => exprAt e ++ emit c .bitNot
  | .update op before e => updateAt c op before (referenceAt e)
  | .binary op l r => exprAt l ++ (exprAt r ++ emit c (binaryOpcode op))
  | .logical op l r => .label fun done =>
    exprAt l ++ (jump c (match op with
      | .and => .logicalAnd
      | .or => .logicalOr) done ++ (exprAt r ++ .mark done))
  | .assignment op target value => assignmentAt c op (referenceAt target) (exprAt value)
  | .conditional test x y => .label fun otherwise => .label fun done =>
    exprAt test ++ (jump c .jumpIfFalse otherwise ++ (exprAt x ++ (jump c .jump done ++
      (.mark otherwise ++ (exprAt y ++ .mark done)))))
  | .sequence items => sequenceAt items
  | .call callee arguments =>
    calleeAt c (referenceAt callee) (exprAt callee) ++ (argumentsAt arguments ++
      callAt c (if callee.callsEval then .callEval else .call) (Expr.argumentList arguments).length
        callee.describe)
  | .member object property => exprAt object ++ (constant c (.string property.name) ++ emit c .getProperty)
  | .index object key => exprAt object ++ (exprAt key ++ emit c .getProperty)
  | .new (.call callee arguments) =>
    exprAt callee ++ (argumentsAt arguments ++
      emitWith c .new (.count (Expr.argumentList arguments).length))
  | .new e => exprAt e ++ emitWith c .new (.count 0)

def referenceAt : Expr → Reference
  | .grouping e => referenceAt e
  | .identifier id => .name id.name
  | .member object property => .property (exprAt object) (constant c (.string property.name))
  | .index object key => .property (exprAt object) (exprAt key)
  | _ => .value

def sequenceAt : List Expr → Code
  | [] => .never
  | [e] => exprAt e
  | e :: es => exprAt e ++ (emit c .pop ++ sequenceAt es)

def elementsAt : List (Option Expr) → Nat → Code
  | [], _ => .nil
  | none :: es, i => elementsAt es (i + 1)
  | some e :: es, i => exprAt e ++ (named c .defineProperty (toString i) ++ elementsAt es (i + 1))

def propertiesAt : List (String × Expr) → Code
  | [] => .nil
  | (name, e) :: ps => exprAt e ++ (named c .defineProperty name ++ propertiesAt ps)

def argumentsAt : Option Expr → Code
  | none => .nil
  | some (.sequence items) => itemsAt items
  | some e => exprAt e

def itemsAt : List Expr → Code
  | [] => .nil
  | e :: es => exprAt e ++ itemsAt es

end

/-- Assigns the top of the stack to a target and leaves it there. -/
def assignTopAt (e : Expr) : Code :=
  match referenceAt c e with
  | .name name => store c name
  | .property object key => Code.temporary fun value =>
    emitWith c .storeLocal (.temporary value) ++ (object ++ (key ++
      (emitWith c .loadLocal (.temporary value) ++ emit c .setProperty)))
  | .value => .never

section

variable (rs : List Region)

theorem layout_among : (∀ e, exprAt (c.among rs) e = exprAt c e) ∧
    (∀ arguments, argumentsAt (c.among rs) arguments = argumentsAt c arguments) ∧
    (∀ es, itemsAt (c.among rs) es = itemsAt c es) ∧ (∀ es, sequenceAt (c.among rs) es = sequenceAt c es) ∧
    (∀ e, referenceAt (c.among rs) e = referenceAt c e) ∧
    (∀ ps, propertiesAt (c.among rs) ps = propertiesAt c ps) ∧
    ∀ es i, elementsAt (c.among rs) es i = elementsAt c es i := by
  apply exprAt.mutual_induct
  all_goals intros
  case case46 hitems he => rw [argumentsAt, he, argumentsAt] <;> exact hitems
  all_goals
    simp only [exprAt, argumentsAt, itemsAt, sequenceAt, referenceAt, propertiesAt, elementsAt, *]
    try rfl

theorem exprAt_among (e : Expr) : exprAt (c.among rs) e = exprAt c e := (layout_among c rs).1 e

theorem assignTopAt_among (e : Expr) : assignTopAt (c.among rs) e = assignTopAt c e := by
  simp only [assignTopAt, (layout_among c rs).2.2.2.2.1]
  rfl

end

/-! ## Leaving constructs -/

/-- Leaves constructs up to the one that a jump refers to, and goes there. -/
def jumpAt (kind : JumpKind) (label : Option String) : List Region → Code
  | [] => .never
  | .breakable labels k breakTo continueTo :: outer =>
    if kind.refersTo label labels k then
      match kind, continueTo with
      | .breaks, _ => jump c .jump breakTo
      | .continues, some continueTo => jump c .jump continueTo
      | .continues, none => .never
    else jumpAt kind label outer
  | .scope :: outer => emit c .popScope ++ jumpAt kind label outer
  | .attempt finalizer :: outer => emit c .leaveTry ++ (finalizer.getD .nil ++ jumpAt kind label outer)

/-- Leaves all constructs and returns the value that waits in a temporary. -/
def returnAt (value : Nat) : List Region → Code
  | [] => emitWith c .loadLocal (.temporary value) ++ emit c .ret
  | .breakable .. :: outer => returnAt value outer
  | .scope :: outer => emit c .popScope ++ returnAt value outer
  | .attempt finalizer :: outer => emit c .leaveTry ++ (finalizer.getD .nil ++ returnAt value outer)

def Region.isFinalized : Region → Bool
  | .attempt (some _) => true
  | _ => false

def returnTopAt : Code :=
  if c.regions.any Region.isFinalized then
    Code.temporary fun value => emitWith c .storeLocal (.temporary value) ++ returnAt c value c.regions
  else emit c .ret

/-! ## Statements -/

def declaratorsAt : List Declarator → Code
  | [] => .nil
  | ⟨_, none⟩ :: ds => declaratorsAt ds
  | ⟨id, some init⟩ :: ds => exprAt c init ++ (store c id.name ++ (emit c .pop ++ declaratorsAt ds))

def evaluationAt (e : Expr) : Code :=
  exprAt c e ++
    match c.completion with
    | some completion => emitWith c .storeLocal (.temporary completion)
    | none => emit c .pop

abbrev Part := Setting → Code

def branchAt (test : Expr) (consequent : Part) (alternate : Option Part) : Code := .label fun otherwise =>
  exprAt c test ++ (jump c .jumpIfFalse otherwise ++ (consequent c ++
    match alternate with
    | some alternate => .label fun done => jump c .jump done ++ (.mark otherwise ++ (alternate c ++ .mark done))
    | none => .mark otherwise))

def loopInitAt (head : LoopHead) (keys : Nat) : Code :=
  match head with
  | .counted (some (.declare ds)) _ _ => declaratorsAt c ds
  | .counted (some (.evaluate e)) _ _ => exprAt c e ++ emit c .pop
  | .forIn (.declare d) object =>
    declaratorsAt c [d] ++ (exprAt c object ++ emitWith c .forInPrepare (.temporary keys))
  | .forIn (.assign _) object => exprAt c object ++ emitWith c .forInPrepare (.temporary keys)
  | _ => .nil

def loopConditionAt (head : LoopHead) (keys : Nat) : Code :=
  match head with
  | .counted _ (some test) _ | .whileTest test | .doWhile test => exprAt c test
  | .counted _ none _ => emit c .loadTrue
  | .forIn .. => emitWith c .forInHasNext (.temporary keys)

def loopTestAt (head : LoopHead) (keys : Nat) (exit : Nat) : Code :=
  match head with
  | .counted _ none _ => .nil
  | _ => loopConditionAt c head keys ++ jump c .jumpIfFalse exit

def loopKeyAt (head : LoopHead) (keys : Nat) : Code :=
  match head with
  | .forIn (.declare d) _ =>
    emitWith c .forInNext (.temporary keys) ++ (store c d.id.name ++ emit c .pop)
  | .forIn (.assign e) _ => emitWith c .forInNext (.temporary keys) ++ (assignTopAt c e ++ emit c .pop)
  | _ => .nil

def roundAt (head : LoopHead) (keys : Nat) (labels : List String) (body : Part) (breakTo continueTo : Nat) :
    Code :=
  loopKeyAt c head keys ++ body (c.within (.breakable labels .loop breakTo (some continueTo)))

def loopUpdateAt (head : LoopHead) : Code :=
  match head with
  | .counted _ _ (some update) => exprAt c update ++ emit c .pop
  | _ => .nil

def rotatedLoopAt (head : LoopHead) (keys : Nat) (labels : List String) (body : Part) : Code :=
  .label fun done => .label fun firstContinue =>
    (if testsLast head then .nil else loopTestAt c head keys done) ++
    (roundAt c head keys labels body done firstContinue ++ (.mark firstContinue ++ (loopUpdateAt c head ++
    .label fun top => .label fun laterDone => .label fun laterContinue =>
      .mark top ++ (loopTestAt c head keys laterDone ++
      (roundAt c head keys labels body laterDone laterContinue ++ (.mark laterContinue ++
      (loopUpdateAt c head ++ (jump c .jump top ++ (.mark laterDone ++ .mark done)))))))))

def simpleLoopAt (head : LoopHead) (keys : Nat) (labels : List String) (body : Part) : Code :=
  .label fun top => .label fun start => .label fun next => .label fun done =>
    .mark top ++ ((if testsLast head then .nil else loopTestAt c head keys done) ++ (.mark start ++
    (roundAt c head keys labels body done next ++ (.mark next ++ (loopUpdateAt c head ++
    ((if testsLast head then loopConditionAt c head keys ++ jump c .jumpIfTrue start
      else jump c .jump top) ++ .mark done))))))

def withKeys (head : LoopHead) (k : Nat → Code) : Code :=
  match head with
  | .forIn .. => .temporary k
  | _ => k 0

def loopAt (head : LoopHead) (labels : List String) (body : Part) : Code :=
  withKeys head fun keys =>
    loopInitAt c head keys ++
      if c.options.loopRotation then rotatedLoopAt c head keys labels body
      else simpleLoopAt c head keys labels body

/-- A clause of a switch with the position of its body. -/
structure Clause where
  test : Option Expr
  body : Part
  position : Nat

def clauseTestsAt (discriminant : Nat) : List Clause → Code
  | [] => .nil
  | ⟨none, _, _⟩ :: cs => clauseTestsAt discriminant cs
  | ⟨some test, _, p⟩ :: cs =>
    emitWith c .loadLocal (.temporary discriminant) ++ (exprAt c test ++ (emit c .strictEq ++
      (jump c .jumpIfTrue p ++ clauseTestsAt discriminant cs)))

def clauseBodiesAt : List Clause → Code
  | [] => .nil
  | ⟨_, body, p⟩ :: cs => .mark p ++ (body c ++ clauseBodiesAt cs)

/-- Where a switch goes when no test agrees: to the last default clause or behind the switch. -/
def defaultPosition (done : Nat) : List Clause → Nat
  | [] => done
  | clause :: cs => defaultPosition (if clause.test.isNone then clause.position else done) cs

def switchAt (discriminant : Expr) (labels : List String) (clauses : List (Option Expr × Part)) : Code :=
  .temporary fun value => exprAt c discriminant ++ (emitWith c .storeLocal (.temporary value) ++
    .label fun done => fun a b => ∃ cs : List Clause, cs.map (fun k => (k.test, k.body)) = clauses ∧
      (clauseTestsAt c value cs ++ (jump c .jump (defaultPosition done cs) ++
        (clauseBodiesAt (c.within (.breakable labels .switch done none)) cs ++ .mark done))) a b)

/-- Binds the exception on the stack in a scope of its own. -/
def catchAt (param : Identifier) (body : Part) : Code :=
  named c .pushCatchScope param.name ++ (body (c.inScope (#[param.name] :: c.env)) ++ emit c .popScope)

def handlerAt (handler : Option (Identifier × Part)) (finalized : Bool) (region : Setting)
    (rethrow caught : Nat) : Code :=
  match handler with
  | some (param, body) =>
    .mark caught ++
      if finalized then jump c .enterTry rethrow ++ (catchAt region param body ++ emit c .leaveTry)
      else catchAt c param body
  | none => .nil

def finalizerAt (finalizer : Option Part) (done rethrow : Nat) : Code :=
  match finalizer with
  | some finalizer =>
    finalizer c ++ (jump c .jump done ++ (.mark rethrow ++ .temporary fun exception =>
      emitWith c .storeLocal (.temporary exception) ++ (finalizer c ++
        (emitWith c .loadLocal (.temporary exception) ++ emit c .throwValue))))
  | none => .nil

/-- A statement with exception regions; one that handles nothing has no code. -/
def attemptAt (block : Part) (handler : Option (Identifier × Part)) (finalizer : Option Part) : Code :=
  if handler.isNone && finalizer.isNone then .never
  else .label fun done => .label fun rethrow => .label fun caught =>
    jump c .enterTry (if handler.isSome then caught else rethrow) ++
    (block (c.within (.attempt (finalizer.map fun f => f c))) ++ (emit c .leaveTry ++
    .label fun after => jump c .jump after ++
      (handlerAt c handler finalizer.isSome (c.within (.attempt (finalizer.map fun f => f c))) rethrow caught ++
      (.mark after ++ (finalizerAt c finalizer done rethrow ++ .mark done)))))

def scopedAt (object : Expr) (body : Part) : Code :=
  exprAt c object ++ (emit c .pushWithScope ++ (body (c.inScope []) ++ emit c .popScope))

def returnStmtAt (value : Option Expr) : Code :=
  (match value with
  | some e => exprAt c e
  | none => emit c .loadUndefined) ++ returnTopAt c

def labelledAt (labels : List String) (statement : Part) : Code :=
  if labels.isEmpty then statement c
  else .label fun exit => statement (c.within (.breakable labels .labelled exit none)) ++ .mark exit

section

variable (rs : List Region)

theorem declaratorsAt_among : ∀ ds : List Declarator, declaratorsAt (c.among rs) ds = declaratorsAt c ds
  | [] => rfl
  | ⟨_, none⟩ :: ds => declaratorsAt_among ds
  | ⟨id, some init⟩ :: ds => by
    simp only [declaratorsAt, exprAt_among, declaratorsAt_among ds]
    rfl

theorem evaluationAt_among (e : Expr) : evaluationAt (c.among rs) e = evaluationAt c e := by
  simp only [evaluationAt, exprAt_among]
  rfl

theorem loopInitAt_among (head : LoopHead) (keys : Nat) : loopInitAt (c.among rs) head keys = loopInitAt c head keys := by
  match head with
  | .counted none _ _ | .whileTest _ | .doWhile _ => rfl
  | .counted (some (.declare ds)) _ _ => exact declaratorsAt_among c rs ds
  | .counted (some (.evaluate e)) _ _ =>
    simp only [loopInitAt, exprAt_among]
    rfl
  | .forIn (.declare d) object =>
    simp only [loopInitAt, declaratorsAt_among, exprAt_among]
    rfl
  | .forIn (.assign _) object =>
    simp only [loopInitAt, exprAt_among]
    rfl

theorem loopConditionAt_among (head : LoopHead) (keys : Nat) :
    loopConditionAt (c.among rs) head keys = loopConditionAt c head keys := by
  match head with
  | .counted _ (some test) _ | .whileTest test | .doWhile test => exact exprAt_among c rs test
  | .counted _ none _ | .forIn _ _ => rfl

theorem loopTestAt_among (head : LoopHead) (keys exit : Nat) :
    loopTestAt (c.among rs) head keys exit = loopTestAt c head keys exit := by
  unfold loopTestAt
  split
  · rfl
  · rw [loopConditionAt_among]
    rfl

theorem loopKeyAt_among (head : LoopHead) (keys : Nat) : loopKeyAt (c.among rs) head keys = loopKeyAt c head keys := by
  match head with
  | .counted _ _ _ | .whileTest _ | .doWhile _ | .forIn (.declare _) _ => rfl
  | .forIn (.assign e) _ =>
    simp only [loopKeyAt, assignTopAt_among]
    rfl

theorem loopUpdateAt_among (head : LoopHead) : loopUpdateAt (c.among rs) head = loopUpdateAt c head := by
  match head with
  | .counted _ _ (some update) =>
    simp only [loopUpdateAt, exprAt_among]
    rfl
  | .counted _ _ none | .whileTest _ | .doWhile _ | .forIn _ _ => rfl

theorem clauseTestsAt_among (discriminant : Nat) :
    ∀ cs : List Clause, clauseTestsAt (c.among rs) discriminant cs = clauseTestsAt c discriminant cs
  | [] => rfl
  | ⟨none, _, _⟩ :: cs => clauseTestsAt_among discriminant cs
  | ⟨some test, _, _⟩ :: cs => by
    simp only [clauseTestsAt, exprAt_among, clauseTestsAt_among discriminant cs]
    rfl

end

mutual

def stmtAt : Stmt → Part
  | ⟨labels, _, kind⟩ => fun c => labelledAt c labels (kindAt kind labels)

def kindAt : StmtKind → List String → Part
  | .var ds, _ => fun c => declaratorsAt c ds
  | .function _, _ => fun _ => .nil
  | .expression e, _ => fun c => evaluationAt c e
  | .block body, _ => bodyAt body
  | .branch test consequent alternate, _ => fun c =>
    branchAt c test (stmtAt consequent) (alternateAt alternate)
  | .loop head body, labels => fun c => loopAt c head labels (stmtAt body)
  | .switch discriminant cases, labels => fun c => switchAt c discriminant labels (casesAt cases)
  | .returns value, _ => fun c => returnStmtAt c value
  | .breaks label, _ => fun c => jumpAt c .breaks (label.map Identifier.name) c.regions
  | .continues label, _ => fun c => jumpAt c .continues (label.map Identifier.name) c.regions
  | .throws value, _ => fun c => exprAt c value ++ emit c .throwValue
  | .attempt block handler finalizer, _ => fun c =>
    attemptAt c (bodyAt block) (handlerPart handler) (finalizerPart finalizer)
  | .scoped object body, _ => fun c => scopedAt c object (stmtAt body)
  | .empty, _ => fun _ => .nil

def alternateAt : Option Stmt → Option Part
  | none => none
  | some s => some (stmtAt s)

def handlerPart : Option CatchClause → Option (Identifier × Part)
  | none => none
  | some ⟨param, body⟩ => some (param, bodyAt body)

def finalizerPart : Option (List Stmt) → Option Part
  | none => none
  | some body => some (bodyAt body)

def bodyAt : List Stmt → Part
  | [] => fun _ => .nil
  | s :: ss => fun c => stmtAt s c ++ bodyAt ss c

def casesAt : List SwitchCase → List (Option Expr × Part)
  | [] => []
  | ⟨test, body⟩ :: cs => (test, bodyAt body) :: casesAt cs

end

/-! ## Notes -/

section

variable (K : Nat → Nat → Prop)

mutual

/-- The layout of a statement in which `K` holds of where its code begins and ends, and the code of
every statement in it, wherever that is written out. -/
def stmtNoting : Stmt → Part
  | ⟨labels, _, kind⟩ => fun c a b => labelledAt c labels (kindNoting kind labels) a b ∧ K a.pc b.pc

def kindNoting : StmtKind → List String → Part
  | .block body, _ => bodyNoting body
  | .branch test consequent alternate, _ => fun c =>
    branchAt c test (stmtNoting consequent) (alternateNoting alternate)
  | .loop head body, labels => fun c => loopAt c head labels (stmtNoting body)
  | .switch discriminant cases, labels => fun c => switchAt c discriminant labels (casesNoting cases)
  | .attempt block handler finalizer, _ => fun c =>
    attemptAt c (bodyNoting block) (handlerNoting handler) (finalizerNoting finalizer)
  | .scoped object body, _ => fun c => scopedAt c object (stmtNoting body)
  | kind, labels => kindAt kind labels

def alternateNoting : Option Stmt → Option Part
  | none => none
  | some s => some (stmtNoting s)

def handlerNoting : Option CatchClause → Option (Identifier × Part)
  | none => none
  | some ⟨param, body⟩ => some (param, bodyNoting body)

def finalizerNoting : Option (List Stmt) → Option Part
  | none => none
  | some body => some (bodyNoting body)

def bodyNoting : List Stmt → Part
  | [] => fun _ => .nil
  | s :: ss => fun c => stmtNoting s c ++ bodyNoting ss c

def casesNoting : List SwitchCase → List (Option Expr × Part)
  | [] => []
  | ⟨test, body⟩ :: cs => (test, bodyNoting body) :: casesNoting cs

end

end

/-! ## Units -/

def functionsAt : List (String × FunctionTree) → Code
  | [] => .nil
  | (name, f) :: fs =>
    closure c ⟨f, false, c.strict⟩ ++ (store c name ++ (emit c .pop ++ functionsAt fs))

def entryWith (functions : List (String × FunctionTree)) (body : Part) : Code :=
  functionsAt c functions ++ (body c ++
    ((match c.completion with
      | some completion => emitWith c .loadLocal (.temporary completion)
      | none => emit c .loadUndefined) ++ emit c .ret))

def entryAt (functions : List (String × FunctionTree)) (body : List Stmt) : Code :=
  entryWith c functions (bodyAt body)

end ScriptEngine.Layout
