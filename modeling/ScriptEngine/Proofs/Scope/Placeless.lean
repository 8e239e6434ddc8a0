/-
What a body declares and needs does not depend on places: its storage, its
directives, how deeply functions nest in it, and the names of its
declarations. Nor does it depend on places what a name resolves to. Main
statements: `storageOf_placeless`, `bodyNesting_placeless`,
`declarations_placeless` and `ScopeArena.resolve_placeless`.
-/
import ScriptEngine.Proofs.Tree.Placeless
import ScriptEngine.Scope.Arena

namespace ScriptEngine

/-! ## Expressions -/

namespace Expr

theorem describe_placeless : ∀ e : Expr, e.placeless.describe = e.describe
  | .grouping e => describe_placeless e
  | .member base property => by
    rw [placeless, describe, describe, describe_placeless base]
    rfl
  | .index base _ => by rw [placeless, describe, describe, describe_placeless base]
  | .call callee _ => by rw [placeless, describe, describe, describe_placeless callee]
  | .number _ | .string _ | .boolean _ | .null | .identifier _ | .this | .array _ | .object _ | .function _
  | .unary .. | .update .. | .binary .. | .logical .. | .assignment .. | .conditional .. | .sequence _ | .new _ => rfl

theorem callsEval_placeless : ∀ e : Expr, e.placeless.callsEval = e.callsEval
  | .grouping e => callsEval_placeless e
  | .number _ | .string _ | .boolean _ | .null | .identifier _ | .this | .array _ | .object _ | .function _
  | .unary .. | .update .. | .binary .. | .logical .. | .assignment .. | .conditional .. | .sequence _ | .call ..
  | .member .. | .index .. | .new _ => rfl

end Expr

/-! ## Storage -/

namespace Expr

theorem dynamic_placeless : (∀ e : Expr, e.placeless.isDynamic = e.isDynamic) ∧
    (∀ e, optionIsDynamic (optionPlaceless e) = optionIsDynamic e) ∧
    (∀ es, itemsDynamic (itemsPlaceless es) = itemsDynamic es) ∧
    (∀ ps, propertiesDynamic (propertiesPlaceless ps) = propertiesDynamic ps) ∧
    ∀ es, elementsDynamic (elementsPlaceless es) = elementsDynamic es := by
  apply isDynamic.mutual_induct
  all_goals
    intros
    simp only [placeless, isDynamic, optionPlaceless, optionIsDynamic, itemsPlaceless, itemsDynamic, propertiesPlaceless,
      propertiesDynamic, elementsPlaceless, elementsDynamic, callsEval_placeless, *]

theorem isDynamic_placeless (e : Expr) : e.placeless.isDynamic = e.isDynamic := dynamic_placeless.1 e

end Expr

theorem optionIsDynamic_placeless (e : Option Expr) : optionIsDynamic (optionPlaceless e) = optionIsDynamic e :=
  Expr.dynamic_placeless.2.1 e

theorem Declarator.isDynamic_placeless : ∀ d : Declarator, d.placeless.isDynamic = d.isDynamic
  | ⟨_, init⟩ => optionIsDynamic_placeless init

theorem declaratorsDynamic_placeless (ds : List Declarator) :
    (declaratorsPlaceless ds).any Declarator.isDynamic = ds.any Declarator.isDynamic := by
  rw [declaratorsPlaceless_eq, List.any_map]
  exact congrArg ds.any (funext Declarator.isDynamic_placeless)

theorem LoopHead.isDynamic_placeless (head : LoopHead) : head.placeless.isDynamic = head.isDynamic := by
  cases head with
  | counted init test update =>
    have hinit : (loopInitPlaceless init).any LoopInit.isDynamic = init.any LoopInit.isDynamic := by
      rcases init with _ | (ds | e)
      · rfl
      · exact declaratorsDynamic_placeless ds
      · exact e.isDynamic_placeless
    simp only [placeless, isDynamic, hinit, optionIsDynamic_placeless]
  | whileTest test => exact test.isDynamic_placeless
  | doWhile test => exact test.isDynamic_placeless
  | forIn target object =>
    have htarget : target.placeless.isDynamic = target.isDynamic := by
      cases target with
      | declare d => exact d.isDynamic_placeless
      | assign e => exact e.isDynamic_placeless
    simp only [placeless, isDynamic, htarget, object.isDynamic_placeless]

theorem Stmt.dynamic_placeless : (∀ s : Stmt, s.placeless.isDynamic = s.isDynamic) ∧
    (∀ k : StmtKind, k.placeless.isDynamic = k.isDynamic) ∧
    (∀ body, finalizerDynamic (finalizerPlaceless body) = finalizerDynamic body) ∧
    (∀ body, bodyIsDynamic (bodyPlaceless body) = bodyIsDynamic body) ∧
    (∀ c, handlerDynamic (handlerPlaceless c) = handlerDynamic c) ∧
    (∀ cs, casesDynamic (casesPlaceless cs) = casesDynamic cs) ∧
    ∀ s, alternateDynamic (alternatePlaceless s) = alternateDynamic s := by
  apply Stmt.isDynamic.mutual_induct
  all_goals
    intros
    simp only [Stmt.placeless, Stmt.isDynamic, StmtKind.placeless, StmtKind.isDynamic, finalizerPlaceless, finalizerDynamic,
      bodyPlaceless, bodyIsDynamic, handlerPlaceless, handlerDynamic, casesPlaceless, SwitchCase.placeless, casesDynamic,
      alternatePlaceless, alternateDynamic, declaratorsDynamic_placeless, Expr.isDynamic_placeless,
      LoopHead.isDynamic_placeless, optionIsDynamic_placeless, *]

theorem storageOf_placeless (body : List Stmt) : storageOf (bodyPlaceless body) = storageOf body := by
  rw [storageOf, storageOf, Stmt.dynamic_placeless.2.2.2.1]

theorem hasUseStrict_placeless : ∀ body : List Stmt, hasUseStrict (bodyPlaceless body) = hasUseStrict body
  | [] => rfl
  | ⟨labels, span, kind⟩ :: ss => by
    cases kind with
    | expression e =>
      cases e with
      | string s => exact congrArg (s == "use strict" || ·) (hasUseStrict_placeless ss)
      | _ => rfl
    | _ => rfl

/-! ## Nesting of functions -/

theorem nesting_placeless : (∀ e : Expr, e.placeless.nesting = e.nesting) ∧
    (∀ e, optionNesting (optionPlaceless e) = optionNesting e) ∧
    (∀ es n, itemsNesting (itemsPlaceless es) n = itemsNesting es n) ∧
    (∀ f : FunctionTree, f.placeless.nesting = f.nesting) ∧
    (∀ body n, bodyNesting (bodyPlaceless body) n = bodyNesting body n) ∧
    (∀ s : Stmt, s.placeless.nesting = s.nesting) ∧
    (∀ k : StmtKind, k.placeless.nesting = k.nesting) ∧
    (∀ body, finalizerNesting (finalizerPlaceless body) = finalizerNesting body) ∧
    (∀ c, handlerNesting (handlerPlaceless c) = handlerNesting c) ∧
    (∀ cs n, casesNesting (casesPlaceless cs) n = casesNesting cs n) ∧
    (∀ head : LoopHead, head.placeless.nesting = head.nesting) ∧
    (∀ target : KeyTarget, target.placeless.nesting = target.nesting) ∧
    (∀ d : Declarator, d.placeless.nesting = d.nesting) ∧
    (∀ init, loopInitNesting (loopInitPlaceless init) = loopInitNesting init) ∧
    (∀ init : LoopInit, init.placeless.nesting = init.nesting) ∧
    (∀ ds n, declaratorsNesting (declaratorsPlaceless ds) n = declaratorsNesting ds n) ∧
    (∀ s, alternateNesting (alternatePlaceless s) = alternateNesting s) ∧
    (∀ ps n, propertiesNesting (propertiesPlaceless ps) n = propertiesNesting ps n) ∧
    ∀ es n, elementsNesting (elementsPlaceless es) n = elementsNesting es n := by
  apply Expr.nesting.mutual_induct
  all_goals
    intros
    simp only [Expr.placeless, Expr.nesting, optionPlaceless, optionNesting, itemsPlaceless, itemsNesting,
      FunctionTree.placeless, FunctionTree.nesting, bodyPlaceless, bodyNesting, Stmt.placeless, Stmt.nesting,
      StmtKind.placeless, StmtKind.nesting, finalizerPlaceless, finalizerNesting, handlerPlaceless, handlerNesting,
      casesPlaceless, SwitchCase.placeless, casesNesting, LoopHead.placeless, LoopHead.nesting, KeyTarget.placeless,
      KeyTarget.nesting, Declarator.placeless, Declarator.nesting, loopInitPlaceless, loopInitNesting, LoopInit.placeless,
      LoopInit.nesting, declaratorsPlaceless, declaratorsNesting, alternatePlaceless, alternateNesting, propertiesPlaceless,
      propertiesNesting, elementsPlaceless, elementsNesting, *]

theorem bodyNesting_placeless (body : List Stmt) (n : Nat) : bodyNesting (bodyPlaceless body) n = bodyNesting body n :=
  nesting_placeless.2.2.2.2.1 body n

/-! ## Declarations -/

def Declaration.placeless (d : Declaration) : Declaration := ⟨d.id.placeless, d.function.map FunctionTree.placeless⟩

theorem map_placeless_append (before : Array Declaration) (ds : List Declaration) :
    before.map Declaration.placeless ++ ds.map Declaration.placeless = (before ++ ds).map Declaration.placeless :=
  Array.ext' (by simp)

theorem Declarator.declaration_placeless (d : Declarator) : d.placeless.declaration = d.declaration.placeless := by
  obtain ⟨id, init⟩ := d
  rfl

theorem declarators_declarations (ds : List Declarator) :
    (declaratorsPlaceless ds).map Declarator.declaration = (ds.map Declarator.declaration).map Declaration.placeless := by
  rw [declaratorsPlaceless_eq, List.map_map, List.map_map]
  exact congrArg (ds.map ·) (funext Declarator.declaration_placeless)

theorem FunctionTree.declaration_placeless (f : FunctionTree) :
    f.placeless.declaration = f.declaration.map Declaration.placeless := by
  obtain ⟨_ | id, params, body, span⟩ := f <;> rfl

theorem LoopHead.declarations_placeless (head : LoopHead) :
    head.placeless.declarations = head.declarations.map Declaration.placeless := by
  rcases head with ⟨_ | (ds | e), test, update⟩ | test | test | ⟨d | e, object⟩
  · rfl
  · exact declarators_declarations ds
  · rfl
  · rfl
  · rfl
  · exact congrArg (fun d => [d]) d.declaration_placeless
  · rfl

theorem hoist_placeless :
    (∀ (s : Stmt) before, s.placeless.hoist (before.map Declaration.placeless) = (s.hoist before).map Declaration.placeless) ∧
    (∀ (k : StmtKind) before,
      k.placeless.hoist (before.map Declaration.placeless) = (k.hoist before).map Declaration.placeless) ∧
    (∀ c before, hoistHandler (handlerPlaceless c) (before.map Declaration.placeless) =
      (hoistHandler c before).map Declaration.placeless) ∧
    (∀ body before, hoistAll (bodyPlaceless body) (before.map Declaration.placeless) =
      (hoistAll body before).map Declaration.placeless) ∧
    (∀ body before, hoistFinalizer (finalizerPlaceless body) (before.map Declaration.placeless) =
      (hoistFinalizer body before).map Declaration.placeless) ∧
    (∀ cs before, hoistCases (casesPlaceless cs) (before.map Declaration.placeless) =
      (hoistCases cs before).map Declaration.placeless) ∧
    ∀ s before, hoistAlternate (alternatePlaceless s) (before.map Declaration.placeless) =
      (hoistAlternate s before).map Declaration.placeless := by
  apply Stmt.hoist.mutual_induct
  all_goals
    intros
    simp only [Stmt.placeless, Stmt.hoist, StmtKind.placeless, StmtKind.hoist, handlerPlaceless, hoistHandler,
      bodyPlaceless, hoistAll, finalizerPlaceless, hoistFinalizer, casesPlaceless, SwitchCase.placeless, hoistCases,
      alternatePlaceless, hoistAlternate, declarators_declarations, FunctionTree.declaration_placeless,
      LoopHead.declarations_placeless, map_placeless_append, *]

theorem declarations_placeless (body : List Stmt) :
    declarations (bodyPlaceless body) = (declarations body).map Declaration.placeless := by
  rw [declarations, declarations, ← hoist_placeless.2.2.2.1, Array.map_empty]

/-! ## Scopes -/

def Variable.placeless (v : Variable) : Variable := { v with span := .nowhere }

def BindingTable.placeless (t : BindingTable) : BindingTable := ⟨t.positions, t.entries.map Variable.placeless⟩

def Scope.placeless (s : Scope) : Scope := { s with bindings := s.bindings.placeless }

def ScopeArena.placeless (a : ScopeArena) : ScopeArena := ⟨a.scopes.map Scope.placeless⟩

namespace BindingTable

theorem names_placeless (t : BindingTable) : t.placeless.names = t.names := by
  simp only [names, placeless, Array.map_map]
  rfl

theorem declare_placeless (t : BindingTable) (name : String) (initializer : Option Nat) (span : Span) :
    t.placeless.declare name initializer .nowhere = (t.declare name initializer span).placeless := by
  obtain ⟨positions, entries⟩ := t
  simp only [declare, placeless, indexOf?]
  cases positions[name]? with
  | none => simp [size, Variable.placeless]
  | some i =>
    cases initializer with
    | none => rfl
    | some f =>
      simp only [mk.injEq, true_and]
      apply Array.ext
      · simp
      · intro j h₁ h₂
        simp only [Array.getElem_modify, Array.getElem_map]
        split <;> rfl

end BindingTable

namespace ScopeArena

variable (a : ScopeArena)

theorem get_placeless (s : ScopeRef) : a.placeless.get s = (a.get s).placeless := by
  have hdefault : (default : Scope).placeless = default := by
    rw [Scope.placeless, BindingTable.placeless]
    exact congrArg (fun es => Scope.mk [] .global .dynamic ⟨∅, es⟩) Array.map_empty
  simp only [get, placeless, Array.getD_eq_getD_getElem?, Array.getElem?_map]
  cases a.scopes[s.index]? with
  | none => exact hdefault.symm
  | some sc => rfl

theorem chain_placeless (s : ScopeRef) : a.placeless.chain s = a.chain s := by
  rw [chain, chain, get_placeless]
  rfl

theorem resolveIn_placeless (name : String) (refs : List ScopeRef) (depth : Nat) :
    a.placeless.resolveIn name refs depth = a.resolveIn name refs depth := by
  induction refs generalizing depth with
  | nil => rfl
  | cons s outer ih =>
    rw [resolveIn, resolveIn, indexOf?, indexOf?, get_placeless, ih]
    rfl

theorem resolve_placeless (s : ScopeRef) (name : String) : a.placeless.resolve s name = a.resolve s name := by
  rw [resolve, resolve, chain_placeless, resolveIn_placeless]

theorem push_placeless (parent : Option ScopeRef) (kind : ScopeKind) (wanted : Storage) :
    a.placeless.push parent kind wanted = ((a.push parent kind wanted).1, (a.push parent kind wanted).2.placeless) := by
  have hchain : a.placeless.chain = a.chain := funext a.chain_placeless
  simp only [push, hchain]
  simp [placeless, Scope.placeless, BindingTable.placeless, BindingTable.empty]

theorem declareIn_placeless (s : ScopeRef) (name : String) (initializer : Option Nat) (span : Span) :
    a.placeless.declareIn s name initializer .nowhere =
      ((a.declareIn s name initializer span).1, (a.declareIn s name initializer span).2.placeless) := by
  simp only [declareIn, get_placeless, Prod.mk.injEq]
  refine ⟨by simp [Scope.placeless, BindingTable.placeless, BindingTable.slotFor, BindingTable.indexOf?,
    BindingTable.size], ?_⟩
  simp only [placeless, mk.injEq]
  apply Array.ext
  · simp
  · intro j h₁ h₂
    simp only [Array.getElem_modify, Array.getElem_map]
    split
    · simp only [Scope.placeless, BindingTable.declare_placeless _ name initializer span]
    · rfl

end ScopeArena

end ScriptEngine
