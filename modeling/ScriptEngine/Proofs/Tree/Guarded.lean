/-
Well-formed trees. Every `try` of a tree has a handler or a finalizer, also in
the functions nested in it. `FunctionTree.Within` counts how deep those nest, so
that statements about a program can be proved from its innermost functions out.
Main statement: `FunctionTree.Guarded.within`, the depth of a function bounds
that count.
-/
import ScriptEngine.Scope.Analysis

namespace ScriptEngine

variable {P Q : FunctionTree → Prop}

mutual

/-- The functions written in the expression, outside of each other, have a property. -/
def Expr.Holds (P : FunctionTree → Prop) : Expr → Prop
  | .number _ => True
  | .string _ => True
  | .boolean _ => True
  | .null => True
  | .identifier _ => True
  | .this => True
  | .array elements => elementsHold P elements
  | .object properties => propertiesHold P properties
  | .function f => P f
  | .grouping e => e.Holds P
  | .unary _ e => e.Holds P
  | .update _ _ e => e.Holds P
  | .binary _ l r => l.Holds P ∧ r.Holds P
  | .logical _ l r => l.Holds P ∧ r.Holds P
  | .assignment _ l r => l.Holds P ∧ r.Holds P
  | .conditional test a b => test.Holds P ∧ a.Holds P ∧ b.Holds P
  | .sequence items => itemsHold P items
  | .call callee arguments => callee.Holds P ∧ optionHolds P arguments
  | .member e _ => e.Holds P
  | .index l r => l.Holds P ∧ r.Holds P
  | .new e => e.Holds P

def optionHolds (P : FunctionTree → Prop) : Option Expr → Prop
  | none => True
  | some e => e.Holds P

def elementsHold (P : FunctionTree → Prop) : List (Option Expr) → Prop
  | [] => True
  | e :: es => optionHolds P e ∧ elementsHold P es

def propertiesHold (P : FunctionTree → Prop) : List (String × Expr) → Prop
  | [] => True
  | (_, e) :: ps => e.Holds P ∧ propertiesHold P ps

def itemsHold (P : FunctionTree → Prop) : List Expr → Prop
  | [] => True
  | e :: es => e.Holds P ∧ itemsHold P es

end

def declaratorsHold (P : FunctionTree → Prop) : List Declarator → Prop
  | [] => True
  | ⟨_, init⟩ :: ds => optionHolds P init ∧ declaratorsHold P ds

def LoopInit.Holds (P : FunctionTree → Prop) : LoopInit → Prop
  | .declare ds => declaratorsHold P ds
  | .evaluate e => e.Holds P

def KeyTarget.Holds (P : FunctionTree → Prop) : KeyTarget → Prop
  | .declare d => optionHolds P d.init
  | .assign e => e.Holds P

def LoopHead.Holds (P : FunctionTree → Prop) : LoopHead → Prop
  | .counted init test update =>
    (∀ i, init = some i → i.Holds P) ∧ optionHolds P test ∧ optionHolds P update
  | .whileTest test => test.Holds P
  | .doWhile test => test.Holds P
  | .forIn target object => target.Holds P ∧ object.Holds P

mutual

/-- The functions of the statement have a property, and what is tried is handled or finalized. -/
def Stmt.Holds (P : FunctionTree → Prop) : Stmt → Prop
  | ⟨_, _, kind⟩ => kind.Holds P

def StmtKind.Holds (P : FunctionTree → Prop) : StmtKind → Prop
  | .var ds => declaratorsHold P ds
  | .function f => P f
  | .expression e => e.Holds P
  | .block body => bodyHolds P body
  | .branch test consequent alternate => test.Holds P ∧ consequent.Holds P ∧ alternateHolds P alternate
  | .loop head body => head.Holds P ∧ body.Holds P
  | .switch discriminant cases => discriminant.Holds P ∧ casesHold P cases
  | .returns value => optionHolds P value
  | .breaks _ => True
  | .continues _ => True
  | .throws value => value.Holds P
  | .attempt block handler finalizer =>
    (handler.isSome ∨ finalizer.isSome) ∧ bodyHolds P block ∧ handlerHolds P handler ∧ finalizerHolds P finalizer
  | .scoped object body => object.Holds P ∧ body.Holds P
  | .empty => True

def alternateHolds (P : FunctionTree → Prop) : Option Stmt → Prop
  | none => True
  | some s => s.Holds P

def handlerHolds (P : FunctionTree → Prop) : Option CatchClause → Prop
  | none => True
  | some ⟨_, body⟩ => bodyHolds P body

def finalizerHolds (P : FunctionTree → Prop) : Option (List Stmt) → Prop
  | none => True
  | some body => bodyHolds P body

def bodyHolds (P : FunctionTree → Prop) : List Stmt → Prop
  | [] => True
  | s :: ss => s.Holds P ∧ bodyHolds P ss

def casesHold (P : FunctionTree → Prop) : List SwitchCase → Prop
  | [] => True
  | ⟨test, body⟩ :: cs => optionHolds P test ∧ bodyHolds P body ∧ casesHold P cs

end

/-! ## From one property to another -/

theorem le_elementsNesting : ∀ (es : List (Option Expr)) (d : Nat), d ≤ elementsNesting es d
  | [], _ => Nat.le_refl _
  | _ :: es, _ => by
    simp only [elementsNesting]
    exact Nat.le_trans (Nat.le_max_left ..) (le_elementsNesting es _)

theorem le_propertiesNesting : ∀ (ps : List (String × Expr)) (d : Nat), d ≤ propertiesNesting ps d
  | [], _ => Nat.le_refl _
  | (_, _) :: ps, _ => by
    simp only [propertiesNesting]
    exact Nat.le_trans (Nat.le_max_left ..) (le_propertiesNesting ps _)

theorem le_itemsNesting : ∀ (es : List Expr) (d : Nat), d ≤ itemsNesting es d
  | [], _ => Nat.le_refl _
  | _ :: es, _ => by
    simp only [itemsNesting]
    exact Nat.le_trans (Nat.le_max_left ..) (le_itemsNesting es _)

theorem le_declaratorsNesting : ∀ (ds : List Declarator) (d : Nat), d ≤ declaratorsNesting ds d
  | [], _ => Nat.le_refl _
  | _ :: ds, _ => by
    simp only [declaratorsNesting]
    exact Nat.le_trans (Nat.le_max_left ..) (le_declaratorsNesting ds _)

theorem le_bodyNesting : ∀ (ss : List Stmt) (d : Nat), d ≤ bodyNesting ss d
  | [], _ => Nat.le_refl _
  | _ :: ss, _ => by
    simp only [bodyNesting]
    exact Nat.le_trans (Nat.le_max_left ..) (le_bodyNesting ss _)

theorem le_casesNesting : ∀ (cs : List SwitchCase) (d : Nat), d ≤ casesNesting cs d
  | [], _ => Nat.le_refl _
  | ⟨_, body⟩ :: cs, d => by
    simp only [casesNesting]
    have h := le_bodyNesting body d
    exact Nat.le_trans (Nat.le_trans h (Nat.le_max_left ..)) (le_casesNesting cs _)

section

variable {k : Nat} (hPQ : ∀ f, P f → f.nesting ≤ k → Q f)
include hPQ

theorem Expr.holds_imp : (∀ e : Expr, e.Holds P → e.nesting ≤ k → e.Holds Q) ∧
    (∀ e, optionHolds P e → optionNesting e ≤ k → optionHolds Q e) ∧
    (∀ es, itemsHold P es → ∀ d, itemsNesting es d ≤ k → itemsHold Q es) ∧
    (∀ ps, propertiesHold P ps → ∀ d, propertiesNesting ps d ≤ k → propertiesHold Q ps) ∧
    ∀ es, elementsHold P es → ∀ d, elementsNesting es d ≤ k → elementsHold Q es := by
  apply Expr.Holds.mutual_induct
  all_goals
    simp only [Expr.Holds, Expr.nesting, optionHolds, optionNesting, itemsHold, itemsNesting, propertiesHold,
      propertiesNesting, elementsHold, elementsNesting]
    grind [le_itemsNesting, le_propertiesNesting, le_elementsNesting]

theorem option_imp (e : Option Expr) : optionHolds P e → optionNesting e ≤ k → optionHolds Q e :=
  (Expr.holds_imp hPQ).2.1 e

theorem declarators_imp : ∀ (ds : List Declarator) (d : Nat), declaratorsHold P ds →
    declaratorsNesting ds d ≤ k → declaratorsHold Q ds
  | [], _, _, _ => trivial
  | ⟨_, init⟩ :: ds, d, h, hk => by
    simp only [declaratorsNesting, Declarator.nesting] at hk
    have hd := Nat.le_trans (le_declaratorsNesting ds _) hk
    exact ⟨option_imp hPQ init h.1 (Nat.max_le.1 hd).2, declarators_imp ds _ h.2 hk⟩

theorem LoopInit.holds_imp : ∀ i : LoopInit, i.Holds P → i.nesting ≤ k → i.Holds Q
  | .declare ds, h, hk => declarators_imp hPQ ds 0 h hk
  | .evaluate e, h, hk => (Expr.holds_imp hPQ).1 e h hk

theorem LoopHead.holds_imp (head : LoopHead) (h : head.Holds P) (hk : head.nesting ≤ k) : head.Holds Q := by
  have hexpr := (Expr.holds_imp hPQ).1
  cases head with
  | counted init test update =>
    simp only [LoopHead.nesting, Nat.max_le] at hk
    refine ⟨fun i hi => ?_, option_imp hPQ test h.2.1 hk.2.1, option_imp hPQ update h.2.2 hk.2.2⟩
    subst hi
    exact LoopInit.holds_imp hPQ i (h.1 i rfl) hk.1
  | whileTest test | doWhile test => exact hexpr test h hk
  | forIn target object =>
    simp only [LoopHead.nesting, Nat.max_le] at hk
    refine ⟨?_, hexpr object h.2 hk.2⟩
    cases target with
    | declare d =>
      obtain ⟨_, init⟩ := d
      exact option_imp hPQ init h.1 hk.1
    | assign e => exact hexpr e h.1 hk.1

theorem Stmt.holds_imp : (∀ s : Stmt, s.Holds P → s.nesting ≤ k → s.Holds Q) ∧
    (∀ kind : StmtKind, kind.Holds P → kind.nesting ≤ k → kind.Holds Q) ∧
    (∀ body, finalizerHolds P body → finalizerNesting body ≤ k → finalizerHolds Q body) ∧
    (∀ body, bodyHolds P body → ∀ d, bodyNesting body d ≤ k → bodyHolds Q body) ∧
    (∀ c, handlerHolds P c → handlerNesting c ≤ k → handlerHolds Q c) ∧
    (∀ cs, casesHold P cs → ∀ d, casesNesting cs d ≤ k → casesHold Q cs) ∧
    ∀ s, alternateHolds P s → alternateNesting s ≤ k → alternateHolds Q s := by
  have hexpr := (Expr.holds_imp hPQ).1
  have hoption := option_imp hPQ
  have hdeclarators := declarators_imp hPQ
  have hhead := LoopHead.holds_imp hPQ
  apply Stmt.Holds.mutual_induct
  all_goals
    simp only [Stmt.Holds, Stmt.nesting, StmtKind.Holds, StmtKind.nesting, finalizerHolds, finalizerNesting, bodyHolds,
      bodyNesting, handlerHolds, handlerNesting, casesHold, casesNesting, alternateHolds, alternateNesting]
    grind [le_bodyNesting, le_casesNesting]

theorem body_imp (body : List Stmt) (h : bodyHolds P body) (d : Nat) (hk : bodyNesting body d ≤ k) : bodyHolds Q body :=
  (Stmt.holds_imp hPQ).2.2.2.1 body h d hk

end

/-! ## Functions -/

/-- The function and those nested in it, at most `n` deep, are well formed. -/
def FunctionTree.Within : Nat → FunctionTree → Prop
  | 0, _ => False
  | n + 1, f => bodyHolds (FunctionTree.Within n) f.body

/-- The function and those nested in it are well formed. -/
def FunctionTree.Guarded (f : FunctionTree) : Prop := ∃ n, f.Within n

theorem FunctionTree.Within.of_nesting : ∀ {m n : Nat} {f : FunctionTree}, f.Within n → f.nesting ≤ m → f.Within m
  | 0, _, ⟨_, _, _, _⟩, _, hm => by simp [FunctionTree.nesting] at hm
  | m + 1, n + 1, ⟨_, _, body, _⟩, h, hm => by
    simp only [FunctionTree.nesting, Nat.add_le_add_iff_right] at hm
    exact body_imp (fun _ hf hk => Within.of_nesting hf hk) body h 0 hm

/-- **A function is well formed as deep as its functions nest.** -/
theorem FunctionTree.Guarded.within {f : FunctionTree} (h : f.Guarded) {n : Nat} (hn : f.nesting ≤ n) :
    f.Within n := by
  obtain ⟨m, hm⟩ := h
  exact hm.of_nesting hn

theorem bodyHolds_within {body : List Stmt} (h : bodyHolds FunctionTree.Guarded body) :
    bodyHolds (FunctionTree.Within (bodyNesting body 0)) body :=
  body_imp (fun _ hf hk => hf.within hk) body h 0 (Nat.le_refl _)

theorem FunctionTree.guarded_of_body {f : FunctionTree} (h : bodyHolds FunctionTree.Guarded f.body) :
    f.Guarded := ⟨bodyNesting f.body 0 + 1, bodyHolds_within h⟩

/-! ## Declared functions -/

/-- The functions among declarations have a property. -/
def DeclaredHold (P : FunctionTree → Prop) (ds : Array Declaration) : Prop :=
  ∀ d ∈ ds, ∀ f, d.function = some f → P f

theorem DeclaredHold.append {ds : Array Declaration} {es : List Declaration} (hd : DeclaredHold P ds)
    (he : ∀ d ∈ es, ∀ f, d.function = some f → P f) : DeclaredHold P (ds ++ es) := by
  intro d hm
  rw [Array.mem_def, Array.toList_appendList, List.mem_append] at hm
  exact hm.elim (fun hm => hd d (Array.mem_def.2 hm)) (he d)

theorem FunctionTree.declaration_holds {f : FunctionTree} (h : P f) :
    ∀ d ∈ f.declaration, ∀ g, d.function = some g → P g := by
  intro d hd g hg
  rw [FunctionTree.declaration] at hd
  split at hd
  · obtain rfl := List.mem_singleton.1 hd
    exact Option.some.inj hg ▸ h
  · cases hd

theorem Declarator.declarations_hold (ds : List Declarator) :
    ∀ d ∈ ds.map Declarator.declaration, ∀ f, d.function = some f → P f := by
  intro d hd f hf
  obtain ⟨_, _, rfl⟩ := List.mem_map.1 hd
  cases hf

theorem LoopHead.declarations_hold (head : LoopHead) :
    ∀ d ∈ head.declarations, ∀ f, d.function = some f → P f := by
  unfold LoopHead.declarations
  split
  · exact Declarator.declarations_hold _
  · exact Declarator.declarations_hold [_]
  · nofun

theorem hoist_holds : (∀ (s : Stmt) ds, DeclaredHold P ds → s.Holds P → DeclaredHold P (s.hoist ds)) ∧
    (∀ (kind : StmtKind) ds, DeclaredHold P ds → kind.Holds P → DeclaredHold P (kind.hoist ds)) ∧
    (∀ c ds, DeclaredHold P ds → handlerHolds P c → DeclaredHold P (hoistHandler c ds)) ∧
    (∀ body ds, DeclaredHold P ds → bodyHolds P body → DeclaredHold P (hoistAll body ds)) ∧
    (∀ body ds, DeclaredHold P ds → finalizerHolds P body → DeclaredHold P (hoistFinalizer body ds)) ∧
    (∀ cs ds, DeclaredHold P ds → casesHold P cs → DeclaredHold P (hoistCases cs ds)) ∧
    ∀ s ds, DeclaredHold P ds → alternateHolds P s → DeclaredHold P (hoistAlternate s ds) := by
  have hvar ds before (hd : DeclaredHold P before) := hd.append (Declarator.declarations_hold ds)
  have hfunction f before (hd : DeclaredHold P before) (hf : P f) := hd.append (FunctionTree.declaration_holds hf)
  have hloop head before (hd : DeclaredHold P before) := hd.append (LoopHead.declarations_hold head)
  apply Stmt.hoist.mutual_induct
  all_goals
    simp only [Stmt.hoist, Stmt.Holds, StmtKind.hoist, StmtKind.Holds, hoistHandler, handlerHolds, hoistAll, bodyHolds,
      hoistFinalizer, finalizerHolds, hoistCases, casesHold, hoistAlternate, alternateHolds]
    grind

theorem declarations_hold {body : List Stmt} (h : bodyHolds P body) : DeclaredHold P (declarations body) :=
  hoist_holds.2.2.2.1 body #[] (by simp [DeclaredHold]) h

end ScriptEngine
