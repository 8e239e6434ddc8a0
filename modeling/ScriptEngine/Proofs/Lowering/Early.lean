/-
Early faults: what is wrong with a program before it runs, read off its tree. The
faults of nested functions are given. A jump is at fault by the constructs around it,
and runs the finalizers of those that it leaves. Main definition: `Program.early`.
-/
import ScriptEngine.Proofs.Lowering.Unit

namespace ScriptEngine

namespace Lowering

/-! ## Expressions -/

/-- What an expression refers to, as far as faults go. -/
inductive Refers
  | variable
  | property (object key : Option Fault)
  | value

namespace Refers

def typeofEarly (value : Option Fault) : Refers → Option Fault
  | .variable => none
  | _ => value

def deleteEarly (value : Option Fault) : Refers → Option Fault
  | .variable => none
  | .property object key => object.or key
  | .value => value

def updateEarly : Refers → Option Fault
  | .variable => none
  | .property object key => object.or key
  | .value => some (.source (.invalidLeftSide .update))

def assignmentEarly (value : Option Fault) : Refers → Option Fault
  | .variable => value
  | .property object key => object.or (key.or value)
  | .value => some (.source (.invalidLeftSide .assignment))

def assignTopEarly : Refers → Option Fault
  | .variable => none
  | .property object key => object.or key
  | .value => some (.source (.invalidLeftSide .forIn))

end Refers

end Lowering

open Lowering (Refers)

mutual

/-- The early fault of an expression, given those of functions. -/
def Expr.early (V : FunctionTree → Option Fault) : Expr → Option Fault
  | .number _ => none
  | .string _ => none
  | .boolean _ => none
  | .null => none
  | .identifier _ => none
  | .this => none
  | .array elements => if elements.length < poolLimit then elementsEarly V elements else some (.limit .arrayLiteral)
  | .object properties => propertiesEarly V properties
  | .function f => V f
  | .grouping e => e.early V
  | .unary .typeof e => (e.refers V).typeofEarly (e.early V)
  | .unary .delete e => (e.refers V).deleteEarly (e.early V)
  | .unary .void e => e.early V
  | .unary .minus e => e.early V
  | .unary .plus e => e.early V
  | .unary .logicalNot e => e.early V
  | .unary .bitwiseNot e => e.early V
  | .update _ _ e => (e.refers V).updateEarly
  | .binary _ l r => (l.early V).or (r.early V)
  | .logical _ l r => (l.early V).or (r.early V)
  | .assignment _ target value => (target.refers V).assignmentEarly (value.early V)
  | .conditional test a b => (test.early V).or ((a.early V).or (b.early V))
  | .sequence items => sequenceEarly V items
  | .call callee arguments => ((callee.refers V).deleteEarly (callee.early V)).or (argumentsEarly V arguments)
  | .member object _ => object.early V
  | .index object key => (object.early V).or (key.early V)
  | .new (.call callee arguments) => (callee.early V).or (argumentsEarly V arguments)
  | .new e => e.early V

def Expr.refers (V : FunctionTree → Option Fault) : Expr → Refers
  | .grouping e => e.refers V
  | .identifier _ => .variable
  | .member object _ => .property (object.early V) none
  | .index object key => .property (object.early V) (key.early V)
  | _ => .value

def sequenceEarly (V : FunctionTree → Option Fault) : List Expr → Option Fault
  | [] => some (.source .emptySequence)
  | [e] => e.early V
  | e :: es => (e.early V).or (sequenceEarly V es)

def elementsEarly (V : FunctionTree → Option Fault) : List (Option Expr) → Option Fault
  | [] => none
  | none :: es => elementsEarly V es
  | some e :: es => (e.early V).or (elementsEarly V es)

def propertiesEarly (V : FunctionTree → Option Fault) : List (String × Expr) → Option Fault
  | [] => none
  | (_, e) :: ps => (e.early V).or (propertiesEarly V ps)

def argumentsEarly (V : FunctionTree → Option Fault) : Option Expr → Option Fault
  | none => none
  | some (.sequence items) =>
    (itemsEarly V items).or (if items.length < poolLimit then none else some (.limit .arguments))
  | some e => e.early V

def itemsEarly (V : FunctionTree → Option Fault) : List Expr → Option Fault
  | [] => none
  | e :: es => (e.early V).or (itemsEarly V es)

end

namespace Lowering

/-! ## Jumps -/

/-- A construct around a statement, as far as faults go: a finalizer comes with its fault. -/
inductive Around
  | breakable (labels : List String) (kind : BreakableKind) (continues : Bool)
  | attempt (finalizer : Option Fault)
  | scope

structure Site where
  kind : UnitKind
  around : List Around

def Site.within (p : Site) (a : Around) : Site := { p with around := a :: p.around }

def targetEarly (jump : JumpKind) (label : Option String) : List Around → Option Fault
  | [] => some (.source (jump.unmatched label))
  | .breakable labels kind continues :: outer =>
    if jump.refersTo label labels kind then
      match jump, continues with
      | .continues, false => some (.source (.continueOutsideLoop (label.getD "")))
      | _, _ => none
    else targetEarly jump label outer
  | _ :: outer => targetEarly jump label outer

/-- The faults of the finalizers that a jump runs on its way. -/
def leftEarly (jump : JumpKind) (label : Option String) : List Around → Option Fault
  | [] => none
  | .breakable labels kind _ :: outer =>
    if jump.refersTo label labels kind then none else leftEarly jump label outer
  | .attempt finalizer :: outer => finalizer.or (leftEarly jump label outer)
  | .scope :: outer => leftEarly jump label outer

def finalizersEarly : List Around → Option Fault
  | [] => none
  | .attempt finalizer :: outer => finalizer.or (finalizersEarly outer)
  | _ :: outer => finalizersEarly outer

/-! ## Statements -/

/-- The fault of a declaration, a test and so on that may be missing. -/
def optionEarly (V : FunctionTree → Option Fault) : Option Expr → Option Fault
  | none => none
  | some e => e.early V

def declaratorsEarly (V : FunctionTree → Option Fault) : List Declarator → Option Fault
  | [] => none
  | ⟨_, init⟩ :: ds => (optionEarly V init).or (declaratorsEarly V ds)

def initEarly (V : FunctionTree → Option Fault) : LoopHead → Option Fault
  | .counted (some (.declare ds)) _ _ => declaratorsEarly V ds
  | .counted (some (.evaluate e)) _ _ => e.early V
  | .forIn (.declare d) object => (declaratorsEarly V [d]).or (object.early V)
  | .forIn (.assign _) object => object.early V
  | _ => none

def testEarly (V : FunctionTree → Option Fault) : LoopHead → Option Fault
  | .counted _ test _ => optionEarly V test
  | .whileTest test | .doWhile test => test.early V
  | .forIn _ _ => none

def keyEarly (V : FunctionTree → Option Fault) : LoopHead → Option Fault
  | .forIn (.assign e) _ => (e.refers V).assignTopEarly
  | _ => none

def updateEarly (V : FunctionTree → Option Fault) : LoopHead → Option Fault
  | .counted _ _ update => optionEarly V update
  | _ => none

/-- The fault of the rounds of a loop whose body has the given fault. -/
def roundsEarly (V : FunctionTree → Option Fault) (head : LoopHead) (body : Option Fault) : Option Fault :=
  if testsLast head then ((keyEarly V head).or body).or ((updateEarly V head).or (testEarly V head))
  else (testEarly V head).or (((keyEarly V head).or body).or (updateEarly V head))

def clauseTestsEarly (V : FunctionTree → Option Fault) : List (Option Expr) → Option Fault
  | [] => none
  | test :: tests => (optionEarly V test).or (clauseTestsEarly V tests)

end Lowering

open Lowering

mutual

def Stmt.early (V : FunctionTree → Option Fault) : Stmt → Site → Option Fault
  | ⟨labels, _, kind⟩, p =>
    kind.early V labels (if labels.isEmpty then p else p.within (.breakable labels .labelled false))

def StmtKind.early (V : FunctionTree → Option Fault) : StmtKind → List String → Site → Option Fault
  | .var ds, _, _ => declaratorsEarly V ds
  | .function _, _, _ => none
  | .expression e, _, _ => e.early V
  | .block body, _, p => bodyEarly V body p
  | .branch test consequent alternate, _, p =>
    (test.early V).or ((consequent.early V p).or (alternateEarly V alternate p))
  | .loop head body, labels, p =>
    (initEarly V head).or (roundsEarly V head (body.early V (p.within (.breakable labels .loop true))))
  | .switch discriminant cases, labels, p =>
    (discriminant.early V).or ((clauseTestsEarly V (cases.map SwitchCase.test)).or
      ((casesEarly V cases (p.within (.breakable labels .switch false))).foldr Option.or none))
  | .returns value, _, p =>
    if p.kind == .function then (optionEarly V value).or (finalizersEarly p.around)
    else some (.source .illegalReturn)
  | .breaks label, _, p =>
    (targetEarly .breaks (label.map Identifier.name) p.around).or
      (leftEarly .breaks (label.map Identifier.name) p.around)
  | .continues label, _, p =>
    (targetEarly .continues (label.map Identifier.name) p.around).or
      (leftEarly .continues (label.map Identifier.name) p.around)
  | .throws value, _, _ => value.early V
  | .attempt block handler finalizer, _, p =>
    let final := finalizerEarly V finalizer p
    let region := p.within (.attempt final)
    (bodyEarly V block region).or
      ((handlerEarly V handler ((if finalizer.isSome then region else p).within .scope)).or final)
  | .scoped object body, _, p => (object.early V).or (body.early V (p.within .scope))
  | .empty, _, _ => none

def alternateEarly (V : FunctionTree → Option Fault) : Option Stmt → Site → Option Fault
  | none, _ => none
  | some s, p => s.early V p

def handlerEarly (V : FunctionTree → Option Fault) : Option CatchClause → Site → Option Fault
  | none, _ => none
  | some ⟨_, body⟩, p => bodyEarly V body p

def finalizerEarly (V : FunctionTree → Option Fault) : Option (List Stmt) → Site → Option Fault
  | none, _ => none
  | some body, p => bodyEarly V body p

def bodyEarly (V : FunctionTree → Option Fault) : List Stmt → Site → Option Fault
  | [], _ => none
  | s :: ss, p => (s.early V p).or (bodyEarly V ss p)

/-- The faults of the bodies of a switch, one after the other. -/
def casesEarly (V : FunctionTree → Option Fault) : List SwitchCase → Site → List (Option Fault)
  | [], _ => []
  | ⟨_, body⟩ :: cs, p => bodyEarly V body p :: casesEarly V cs p

end

/-! ## Units -/

namespace Lowering

def functionsEarly (V : FunctionTree → Option Fault) : List (String × FunctionTree) → Option Fault
  | [] => none
  | (_, f) :: fs => (V f).or (functionsEarly V fs)

/-- The early fault of a unit with the given functions and body. -/
def unitEarly (V : FunctionTree → Option Fault) (kind : UnitKind) (functions : List (String × FunctionTree))
    (body : List Stmt) : Option Fault :=
  (functionsEarly V functions).or (bodyEarly V body ⟨kind, []⟩)

/-- The early fault of a function whose functions nest less than the given deep. -/
def functionEarly : Nat → FunctionTree → Option Fault
  | 0, _ => none
  | n + 1, f => unitEarly (functionEarly n) .function
    (initialFunctions (declarations f.body) (entryTable f.params (declarations f.body)).entries) f.body

end Lowering

def Program.early (p : Program) (kind : UnitKind) : Option Fault :=
  unitEarly (functionEarly (bodyNesting p.body 0)) kind
    (initialFunctions (declarations p.body) (entryTable [] (declarations p.body)).entries) p.body

end ScriptEngine
