/-
The jumps and the functions that are written in a body. A function expression is
made where it stands; of several functions declared with one name the last one
is. Main definition: `HasIllegalJump`, a jump of a unit or of a function it
makes has nowhere to go.
-/
import ScriptEngine.Proofs.Scope.Declarations
import ScriptEngine.Proofs.Tree.Guarded

namespace ScriptEngine

/-! ## Jumps and functions of a body -/

inductive Jump
  | returns
  | breaks (label : Option String)
  | continues (label : Option String)

def StmtKind.isLoop : StmtKind → Bool
  | .loop .. => true
  | _ => false

def StmtKind.isSwitch : StmtKind → Bool
  | .switch .. => true
  | _ => false

/-- The jump has no target, given the statements around it in its unit, innermost first. -/
def Jump.Illegal (kind : UnitKind) (around : List Stmt) : Jump → Prop
  | .returns => kind ≠ .function
  | .breaks none => ∀ s ∈ around, s.kind.isLoop = false ∧ s.kind.isSwitch = false
  | .continues none => ∀ s ∈ around, s.kind.isLoop = false
  | .breaks (some name) => ∀ s ∈ around, name ∉ s.labels
  | .continues (some name) => ∀ s, around.find? (name ∈ ·.labels) = some s → s.kind.isLoop = false

mutual

/-- The function expressions of an expression; nested functions keep theirs. -/
def Expr.functions : Expr → List FunctionTree
  | .number _ => []
  | .string _ => []
  | .boolean _ => []
  | .null => []
  | .identifier _ => []
  | .this => []
  | .array elements => elementsFunctions elements
  | .object properties => propertiesFunctions properties
  | .function f => [f]
  | .grouping e => e.functions
  | .unary _ e => e.functions
  | .update _ _ e => e.functions
  | .binary _ l r => l.functions ++ r.functions
  | .logical _ l r => l.functions ++ r.functions
  | .assignment _ l r => l.functions ++ r.functions
  | .conditional test a b => test.functions ++ (a.functions ++ b.functions)
  | .sequence items => itemsFunctions items
  | .call callee arguments => callee.functions ++ optionFunctions arguments
  | .member e _ => e.functions
  | .index l r => l.functions ++ r.functions
  | .new e => e.functions

def optionFunctions : Option Expr → List FunctionTree
  | none => []
  | some e => e.functions

def elementsFunctions : List (Option Expr) → List FunctionTree
  | [] => []
  | e :: es => optionFunctions e ++ elementsFunctions es

def propertiesFunctions : List (String × Expr) → List FunctionTree
  | [] => []
  | (_, e) :: ps => e.functions ++ propertiesFunctions ps

def itemsFunctions : List Expr → List FunctionTree
  | [] => []
  | e :: es => e.functions ++ itemsFunctions es

end

def declaratorsFunctions : List Declarator → List FunctionTree
  | [] => []
  | ⟨_, init⟩ :: ds => optionFunctions init ++ declaratorsFunctions ds

def loopInitFunctions : Option LoopInit → List FunctionTree
  | none => []
  | some (.declare ds) => declaratorsFunctions ds
  | some (.evaluate e) => e.functions

def KeyTarget.functions : KeyTarget → List FunctionTree
  | .declare d => optionFunctions d.init
  | .assign e => e.functions

def LoopHead.functions : LoopHead → List FunctionTree
  | .counted init test update => loopInitFunctions init ++ (optionFunctions test ++ optionFunctions update)
  | .whileTest test => test.functions
  | .doWhile test => test.functions
  | .forIn target object => target.functions ++ object.functions

inductive Occurrence
  | jump (j : Jump) (around : List Stmt)
  | function (f : FunctionTree)

mutual

/-- The jumps and the function expressions of a statement with others around it, innermost first. -/
def Stmt.occurrences : Stmt → List Stmt → List Occurrence
  | ⟨labels, span, kind⟩, around => kind.occurrences (⟨labels, span, kind⟩ :: around)
termination_by structural x => x

def StmtKind.occurrences : StmtKind → List Stmt → List Occurrence
  | .var ds, _ => (declaratorsFunctions ds).map .function
  | .function _, _ => []
  | .expression e, _ => e.functions.map .function
  | .block body, around => bodyOccurrences body around
  | .branch test consequent alternate, around =>
    test.functions.map .function ++ (consequent.occurrences around ++ alternateOccurrences alternate around)
  | .loop head body, around => head.functions.map .function ++ body.occurrences around
  | .switch discriminant cases, around => discriminant.functions.map .function ++ casesOccurrences cases around
  | .returns value, around => .jump .returns around :: (optionFunctions value).map .function
  | .breaks label, around => [.jump (.breaks (label.map Identifier.name)) around]
  | .continues label, around => [.jump (.continues (label.map Identifier.name)) around]
  | .throws value, _ => value.functions.map .function
  | .attempt block handler finalizer, around =>
    bodyOccurrences block around ++ (handlerOccurrences handler around ++ finalizerOccurrences finalizer around)
  | .scoped object body, around => object.functions.map .function ++ body.occurrences around
  | .empty, _ => []
termination_by structural x => x

def alternateOccurrences : Option Stmt → List Stmt → List Occurrence
  | none, _ => []
  | some s, around => s.occurrences around
termination_by structural x => x

def handlerOccurrences : Option CatchClause → List Stmt → List Occurrence
  | none, _ => []
  | some ⟨_, body⟩, around => bodyOccurrences body around
termination_by structural x => x

def finalizerOccurrences : Option (List Stmt) → List Stmt → List Occurrence
  | none, _ => []
  | some body, around => bodyOccurrences body around
termination_by structural x => x

def bodyOccurrences : List Stmt → List Stmt → List Occurrence
  | [], _ => []
  | s :: ss, around => s.occurrences around ++ bodyOccurrences ss around
termination_by structural x => x

def casesOccurrences : List SwitchCase → List Stmt → List Occurrence
  | [], _ => []
  | ⟨test, body⟩ :: cs, around =>
    (optionFunctions test).map .function ++ (bodyOccurrences body around ++ casesOccurrences cs around)
termination_by structural x => x

end

/-- A jump of a unit, or of a function that it makes, is illegal. A name that is declared as a
function is filled with the last one. -/
inductive HasIllegalJump : UnitKind → List Stmt → Prop
  | here {kind : UnitKind} {body : List Stmt} {j : Jump} {around : List Stmt} :
    Occurrence.jump j around ∈ bodyOccurrences body [] → j.Illegal kind around → HasIllegalJump kind body
  | expression {kind : UnitKind} {body : List Stmt} {f : FunctionTree} :
    Occurrence.function f ∈ bodyOccurrences body [] → HasIllegalJump .function f.body → HasIllegalJump kind body
  | declaration {kind : UnitKind} {body : List Stmt} {f : FunctionTree} {name : String} :
    lastFunction (declarations body).toList name = some f → HasIllegalJump .function f.body → HasIllegalJump kind body

/-! ## What there is in a body -/

def Sound (J : Jump → List Stmt → Prop) (P : FunctionTree → Prop) (os : List Occurrence) : Prop :=
  (∀ j around, Occurrence.jump j around ∈ os → J j around) ∧ ∀ f, Occurrence.function f ∈ os → P f

namespace Sound

variable {J : Jump → List Stmt → Prop} {P : FunctionTree → Prop}

theorem nil : Sound J P [] := ⟨fun _ _ h => (by cases h), fun _ h => (by cases h)⟩

theorem append {os os' : List Occurrence} : Sound J P (os ++ os') ↔ Sound J P os ∧ Sound J P os' := by
  simp only [Sound, List.mem_append, or_imp, forall_and]
  exact and_and_and_comm

theorem functions {fs : List FunctionTree} : Sound J P (fs.map .function) ↔ ∀ f ∈ fs, P f := by
  simp [Sound]

theorem cons_jump {j : Jump} {around : List Stmt} {os : List Occurrence} :
    Sound J P (.jump j around :: os) ↔ J j around ∧ Sound J P os := by
  constructor
  · intro h
    exact ⟨h.1 j around (.head _), fun j' a hm => h.1 j' a (.tail _ hm), fun f hm => h.2 f (.tail _ hm)⟩
  · rintro ⟨hj, hos⟩
    refine ⟨fun j' a hm => ?_, fun f hm => ?_⟩
    · rcases List.mem_cons.1 hm with heq | hm
      · cases heq
        exact hj
      · exact hos.1 j' a hm
    · rcases List.mem_cons.1 hm with heq | hm
      · cases heq
      · exact hos.2 f hm

theorem jump {j : Jump} {around : List Stmt} : Sound J P [.jump j around] ↔ J j around := by
  rw [cons_jump]
  exact and_iff_left nil

end Sound

section

variable {P : FunctionTree → Prop}

theorem Expr.functions_hold : (∀ e : Expr, e.Holds P → ∀ f ∈ e.functions, P f) ∧
    (∀ e, optionHolds P e → ∀ f ∈ optionFunctions e, P f) ∧
    (∀ es, itemsHold P es → ∀ f ∈ itemsFunctions es, P f) ∧
    (∀ ps, propertiesHold P ps → ∀ f ∈ propertiesFunctions ps, P f) ∧
    ∀ es, elementsHold P es → ∀ f ∈ elementsFunctions es, P f := by
  apply Expr.functions.mutual_induct
  all_goals
    simp only [Expr.Holds, Expr.functions, optionHolds, optionFunctions, itemsHold, itemsFunctions, propertiesHold,
      propertiesFunctions, elementsHold, elementsFunctions]
    grind

theorem option_functions_hold (e : Option Expr) : optionHolds P e → ∀ f ∈ optionFunctions e, P f :=
  Expr.functions_hold.2.1 e

theorem declarators_functions_hold : ∀ ds : List Declarator, declaratorsHold P ds → ∀ f ∈ declaratorsFunctions ds, P f
  | [], _ => List.forall_mem_nil _
  | ⟨_, init⟩ :: ds, h => List.forall_mem_append.2 ⟨option_functions_hold init h.1, declarators_functions_hold ds h.2⟩

theorem LoopHead.functions_hold (head : LoopHead) (h : head.Holds P) : ∀ f ∈ head.functions, P f := by
  have hexpr := Expr.functions_hold (P := P).1
  cases head with
  | counted init test update =>
    refine List.forall_mem_append.2 ⟨?_, List.forall_mem_append.2
      ⟨option_functions_hold test h.2.1, option_functions_hold update h.2.2⟩⟩
    match init, h.1 with
    | none, _ => exact List.forall_mem_nil _
    | some (.declare ds), hi => exact declarators_functions_hold ds (hi _ rfl)
    | some (.evaluate e), hi => exact hexpr e (hi _ rfl)
  | whileTest test | doWhile test => exact hexpr test h
  | forIn target object =>
    refine List.forall_mem_append.2 ⟨?_, hexpr object h.2⟩
    cases target with
    | declare d => exact option_functions_hold d.init h.1
    | assign e => exact hexpr e h.1

theorem Stmt.occurrences_hold :
    (∀ (s : Stmt) around, s.Holds P → Sound (fun _ _ => True) P (s.occurrences around)) ∧
    (∀ (kind : StmtKind) around, kind.Holds P → Sound (fun _ _ => True) P (kind.occurrences around)) ∧
    (∀ body around, finalizerHolds P body → Sound (fun _ _ => True) P (finalizerOccurrences body around)) ∧
    (∀ body around, bodyHolds P body → Sound (fun _ _ => True) P (bodyOccurrences body around)) ∧
    (∀ c around, handlerHolds P c → Sound (fun _ _ => True) P (handlerOccurrences c around)) ∧
    (∀ cs around, casesHold P cs → Sound (fun _ _ => True) P (casesOccurrences cs around)) ∧
    ∀ s around, alternateHolds P s → Sound (fun _ _ => True) P (alternateOccurrences s around) := by
  have hexpr := Expr.functions_hold (P := P).1
  have hoption := option_functions_hold (P := P)
  have hdeclarators := declarators_functions_hold (P := P)
  have hhead := LoopHead.functions_hold (P := P)
  apply Stmt.occurrences.mutual_induct
  all_goals
    simp only [Stmt.Holds, Stmt.occurrences, StmtKind.Holds, StmtKind.occurrences, finalizerHolds, finalizerOccurrences,
      bodyHolds, bodyOccurrences, handlerHolds, handlerOccurrences, casesHold, casesOccurrences, alternateHolds,
      alternateOccurrences, Sound.append, Sound.functions, Sound.cons_jump, Sound.nil]
    grind

theorem body_occurrences_hold (body around : List Stmt) :
    bodyHolds P body → Sound (fun _ _ => True) P (bodyOccurrences body around) :=
  Stmt.occurrences_hold.2.2.2.1 body around

theorem lastFunction_holds {body : List Stmt} {name : String} {f : FunctionTree} (h : bodyHolds P body)
    (hf : lastFunction (declarations body).toList name = some f) : P f := by
  obtain ⟨d, hd, hdf⟩ := List.exists_of_findSome?_eq_some hf
  split at hdf
  · exact declarations_hold h d (Array.mem_def.2 (List.mem_reverse.1 hd)) f hdf
  · cases hdf

end

end ScriptEngine
