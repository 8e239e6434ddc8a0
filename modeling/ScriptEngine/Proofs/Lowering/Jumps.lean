/-
Jumps that lead nowhere. Lowering refuses a program for its syntax exactly when
a jump in it is illegal: a return outside functions, or a `break` or `continue`
that the statements around it in the same function give no target. Main
statement: `compile_syntaxError_iff`.
-/
import ScriptEngine.Proofs.Lowering.Verdict
import ScriptEngine.Proofs.Tree.Jumps
import ScriptEngine.Proofs.Tree.Parsed

namespace ScriptEngine

open Lowering

/-! ## Expressions -/

def Harmless (v : Option Fault) : Prop := ∀ f, v = some f → f.kind ≠ .syntaxError

theorem harmless_none : Harmless none := by
  intro f h
  cases h

theorem harmless_limit (l : LimitFault) : Harmless (some (.limit l)) := by
  intro f h
  cases h
  exact (by decide : FailureKind.rangeError ≠ .syntaxError)

theorem Harmless.or {v w : Option Fault} (hv : Harmless v) (hw : Harmless w) : Harmless (v.or w) := by
  cases v with
  | none => exact hw
  | some f => exact hv

section

variable {V : FunctionTree → Option Fault}
variable {label : Option String} {around : List Stmt}

/-- The fault of something that makes these functions: without one all of them have been looked at,
and it is one of syntax only if theirs are. -/
structure Fair (V : FunctionTree → Option Fault) (v : Option Fault) (fs : List FunctionTree) : Prop where
  clear : v = none → ∀ f ∈ fs, V f = none
  harmless : (∀ f ∈ fs, Harmless (V f)) → Harmless v

namespace Fair

variable {v w : Option Fault} {fs gs : List FunctionTree}

theorem nil : Fair V none [] := ⟨fun _ => List.forall_mem_nil _, fun _ => harmless_none⟩

theorem function (f : FunctionTree) : Fair V (V f) [f] :=
  ⟨fun h => List.forall_mem_singleton.2 h, fun h => h f (.head _)⟩

theorem limit (l : LimitFault) : Fair V (some (.limit l)) fs := ⟨fun h => (by cases h), fun _ => harmless_limit l⟩

theorem or (hv : Fair V v fs) (hw : Fair V w gs) : Fair V (v.or w) (fs ++ gs) where
  clear h :=
    List.forall_mem_append.2 ⟨hv.clear (Option.or_eq_none_iff.1 h).1, hw.clear (Option.or_eq_none_iff.1 h).2⟩
  harmless h := (hv.harmless (List.forall_mem_append.1 h).1).or (hw.harmless (List.forall_mem_append.1 h).2)

theorem or_harmless (hv : Fair V v fs) (hw : Harmless w) : Fair V (v.or w) fs where
  clear h := hv.clear (Option.or_eq_none_iff.1 h).1
  harmless h := (hv.harmless h).or hw

theorem append_nil (hv : Fair V v fs) : Fair V v (fs ++ []) := by
  rwa [List.append_nil]

end Fair

/-- The faults of a reference are fair. Only what can be assigned to is more than a value. -/
def FairReference (V : FunctionTree → Option Fault) (assignable : Bool) (fs : List FunctionTree) : Refers → Prop
  | .variable => fs = []
  | .property object key => Fair V (object.or key) fs
  | .value => assignable = false

namespace FairReference

variable {fs gs : List FunctionTree} {b : Bool} {r : Refers} {value : Option Fault}

theorem typeof (hr : FairReference V b fs r) (hv : Fair V value fs) : Fair V (r.typeofEarly value) fs := by
  rcases r with _ | ⟨_, _⟩ | _
  · exact hr ▸ .nil
  · exact hv
  · exact hv

theorem delete (hr : FairReference V b fs r) (hv : Fair V value fs) : Fair V (r.deleteEarly value) fs := by
  rcases r with _ | ⟨_, _⟩ | _
  · exact hr ▸ .nil
  · exact hr
  · exact hv

theorem update (hr : FairReference V b fs r) (hb : b = true) : Fair V r.updateEarly fs := by
  rcases r with _ | ⟨_, _⟩ | _
  · exact hr ▸ .nil
  · exact hr
  · cases hb.symm.trans hr

theorem assignment (hr : FairReference V b fs r) (hb : b = true) (hv : Fair V value gs) :
    Fair V (r.assignmentEarly value) (fs ++ gs) := by
  rcases r with _ | ⟨_, _⟩ | _
  · cases hr
    exact hv
  · rw [Refers.assignmentEarly, ← Option.or_assoc]
    exact Fair.or hr hv
  · cases hb.symm.trans hr

theorem assignTop (hr : FairReference V b fs r) (hb : b = true) : Fair V r.assignTopEarly fs := by
  rcases r with _ | ⟨_, _⟩ | _
  · exact hr ▸ .nil
  · exact hr
  · cases hb.symm.trans hr

end FairReference

mutual

theorem Expr.fair : ∀ e : Expr, e.Respects → Fair V (e.early V) e.functions
  | .number _, _ | .string _, _ | .boolean _, _ | .null, _ | .identifier _, _ | .this, _ => .nil
  | .array elements, h => by
    rw [Expr.early]
    split
    · exact elements_fair elements h
    · exact .limit _
  | .object properties, h => properties_fair properties h
  | .function f, _ => .function f
  | .grouping e, h => Expr.fair e h
  | .unary .typeof e, h => (Expr.fair_reference e h.2).typeof (Expr.fair e h.2)
  | .unary .delete e, h => (Expr.fair_reference e h.2).delete (Expr.fair e h.2)
  | .unary .void e, h | .unary .minus e, h | .unary .plus e, h | .unary .logicalNot e, h | .unary .bitwiseNot e, h =>
    Expr.fair e h.2
  | .update _ _ e, h => (Expr.fair_reference e h.2).update h.1
  | .binary _ l r, ⟨_, _, hl, hr⟩ => (Expr.fair l hl).or (Expr.fair r hr)
  | .logical _ l r, ⟨_, _, hl, hr⟩ => (Expr.fair l hl).or (Expr.fair r hr)
  | .assignment _ target value, ⟨⟨_, href, _⟩, ht, hv⟩ =>
    (Expr.fair_reference target ht).assignment href (Expr.fair value hv)
  | .conditional test a b, ⟨_, ht, ha, hb⟩ => (Expr.fair test ht).or ((Expr.fair a ha).or (Expr.fair b hb))
  | .sequence items, h => sequence_fair items (List.ne_nil_of_length_pos (Nat.lt_of_lt_of_le (by decide) h.1)) h.2
  | .call callee arguments, ⟨_, hc, ha⟩ =>
    ((Expr.fair_reference callee hc).delete (Expr.fair callee hc)).or (arguments_fair arguments ha)
  | .member object _, h => Expr.fair object h.2
  | .index object key, ⟨_, ho, hk⟩ => (Expr.fair object ho).or (Expr.fair key hk)
  | .new e, h => by
    have he := Expr.fair e h.2
    cases e
    case call callee arguments => exact (Expr.fair callee h.2.2.1).or (arguments_fair arguments h.2.2.2)
    all_goals exact he

theorem Expr.fair_reference : ∀ e : Expr, e.Respects → FairReference V e.isReference e.functions (e.refers V)
  | .grouping e, h => Expr.fair_reference e h
  | .identifier _, _ => rfl
  | .member object _, h => (Expr.fair object h.2).or_harmless harmless_none
  | .index object key, ⟨_, ho, hk⟩ => (Expr.fair object ho).or (Expr.fair key hk)
  | .number _, _ | .string _, _ | .boolean _, _ | .null, _ | .this, _ | .array _, _ | .object _, _ | .function _, _
  | .unary .., _ | .update .., _ | .binary .., _ | .logical .., _ | .assignment .., _ | .conditional .., _
  | .sequence _, _ | .call .., _ | .new _, _ => rfl

theorem sequence_fair : ∀ es : List Expr, es ≠ [] → itemsRespect es → Fair V (sequenceEarly V es) (itemsFunctions es)
  | [], hne, _ => absurd rfl hne
  | [e], _, h => (Expr.fair e h.1.2).append_nil
  | e :: e' :: es, _, h => (Expr.fair e h.1.2).or (sequence_fair (e' :: es) (List.cons_ne_nil _ _) h.2)

theorem elements_fair : ∀ es : List (Option Expr), elementsRespect es → Fair V (elementsEarly V es) (elementsFunctions es)
  | [], _ => .nil
  | none :: es, h => elements_fair es h
  | some e :: es, h => (Expr.fair e h.1.2).or (elements_fair es h.2)

theorem properties_fair : ∀ ps : List (String × Expr), propertiesRespect ps →
    Fair V (propertiesEarly V ps) (propertiesFunctions ps)
  | [], _ => .nil
  | (_, e) :: ps, h => (Expr.fair e h.1.2).or (properties_fair ps h.2)

theorem arguments_fair : ∀ e : Option Expr, optionRespects e → Fair V (argumentsEarly V e) (optionFunctions e)
  | none, _ => .nil
  | some e, h => by
    have he := Expr.fair e h
    cases e
    case sequence items =>
      refine (items_fair items h.2).or_harmless ?_
      split
      · exact harmless_none
      · exact harmless_limit _
    all_goals exact he

theorem items_fair : ∀ es : List Expr, itemsRespect es → Fair V (itemsEarly V es) (itemsFunctions es)
  | [], _ => .nil
  | e :: es, h => (Expr.fair e h.1.2).or (items_fair es h.2)

end

theorem option_fair {e : Option Expr} (h : optionRespects e) : Fair V (optionEarly V e) (optionFunctions e) := by
  cases e with
  | none => exact .nil
  | some e => exact e.fair h

theorem declarators_fair {ds : List Declarator} (h : declaratorsRespect ds) :
    Fair V (declaratorsEarly V ds) (declaratorsFunctions ds) := by
  induction ds with
  | nil => exact .nil
  | cons d ds ih =>
    obtain ⟨id, init⟩ := d
    exact (option_fair h.1).or (ih h.2)

theorem head_fair {head : LoopHead} (h : head.Respects) : ∃ init key update test,
    Fair V (initEarly V head) init ∧ Fair V (keyEarly V head) key ∧ Fair V (updateEarly V head) update ∧
      Fair V (testEarly V head) test ∧ ∀ f, f ∈ head.functions ↔ f ∈ init ∨ f ∈ key ∨ f ∈ update ∨ f ∈ test := by
  cases head with
  | counted init test update =>
    obtain ⟨hi, ht, hu⟩ := h
    have hinit : Fair V (initEarly V (.counted init test update)) (loopInitFunctions init) := by
      rcases init with - | ds | e
      · exact .nil
      · exact declarators_fair hi
      · exact e.fair hi
    refine ⟨_, _, _, _, hinit, .nil, option_fair hu, option_fair ht, fun f => ?_⟩
    simp only [LoopHead.functions, List.mem_append, List.not_mem_nil, false_or]
    exact or_congr_right or_comm
  | whileTest test => exact ⟨_, _, _, _, .nil, .nil, .nil, test.fair h, fun f => by simp [LoopHead.functions]⟩
  | doWhile test => exact ⟨_, _, _, _, .nil, .nil, .nil, test.fair h, fun f => by simp [LoopHead.functions]⟩
  | forIn target object =>
    obtain ⟨ht, ho⟩ := h
    cases target with
    | declare d =>
      obtain ⟨_, init⟩ := d
      exact ⟨_, _, _, _, ((option_fair ht).or .nil).or (object.fair ho), .nil, .nil, .nil, fun f => by
        simp [LoopHead.functions, KeyTarget.functions]⟩
    | assign e =>
      exact ⟨_, _, _, _, object.fair ho, (e.fair_reference ht.2).assignTop ht.1, .nil, .nil, fun f => by
        simp [LoopHead.functions, KeyTarget.functions, or_comm]⟩

/-! ## Targets -/

def Lowering.Around.isBreakable : Around → Bool
  | .breakable .. => true
  | _ => false

/-- The constructs that a statement is for the jumps in it. A loop or a switch under labels has
them twice. -/
def Stmt.constructs (s : Stmt) : List Around :=
  (if s.kind.isLoop then [Around.breakable s.labels .loop true]
    else if s.kind.isSwitch then [Around.breakable s.labels .switch false] else []) ++
  if s.labels.isEmpty then [] else [Around.breakable s.labels .labelled false]

def Lowering.Site.In (p : Site) (around : List Stmt) : Prop :=
  p.around.filter Around.isBreakable = around.flatMap Stmt.constructs

def Stmt.isMeant (jump : JumpKind) (label : Option String) (s : Stmt) : Bool :=
  match label, jump with
  | some name, _ => s.labels.contains name
  | none, .continues => s.kind.isLoop
  | none, .breaks => s.kind.isLoop || s.kind.isSwitch

theorem targetEarly_breakable (jump : JumpKind) (label : Option String) (labels : List String) (kind : BreakableKind)
    (continues : Bool) (as : List Around) :
    targetEarly jump label (.breakable labels kind continues :: as) =
      if jump.refersTo label labels kind then
        if jump = .continues ∧ continues = false then some (.source (.continueOutsideLoop (label.getD ""))) else none
      else targetEarly jump label as := by
  cases jump <;> cases continues <;> rfl

theorem targetEarly_filter (jump : JumpKind) (label : Option String) (as : List Around) :
    targetEarly jump label (as.filter Around.isBreakable) = targetEarly jump label as := by
  induction as with
  | nil => rfl
  | cons a as ih =>
    cases a with
    | breakable labels kind continues =>
      rw [List.filter_cons_of_pos rfl, targetEarly_breakable, targetEarly_breakable, ih]
    | attempt => exact ih
    | scope => exact ih

theorem targetEarly_constructs (jump : JumpKind) (label : Option String) (s : Stmt) (as : List Around) :
    targetEarly jump label (s.constructs ++ as) =
      if s.isMeant jump label then
        if jump = .continues ∧ s.kind.isLoop = false then some (.source (.continueOutsideLoop (label.getD ""))) else none
      else targetEarly jump label as := by
  obtain ⟨labels, span, kind⟩ := s
  simp only [Stmt.constructs]
  cases label with
  | none =>
    cases jump <;> cases hloop : kind.isLoop <;> cases hswitch : kind.isSwitch <;> cases labels.isEmpty <;>
      simp [targetEarly_breakable, JumpKind.refersTo, Stmt.isMeant, hloop, hswitch]
  | some name =>
    by_cases hmem : name ∈ labels
    · have hne : labels.isEmpty = false := List.isEmpty_eq_false_iff.2 (List.ne_nil_of_mem hmem)
      cases jump <;> cases hloop : kind.isLoop <;> cases hswitch : kind.isSwitch <;>
        simp [targetEarly_breakable, JumpKind.refersTo, Stmt.isMeant, hmem, hne]
    · cases kind.isLoop <;> cases kind.isSwitch <;> cases labels.isEmpty <;>
        simp [targetEarly_breakable, JumpKind.refersTo, Stmt.isMeant, hmem]

theorem targetEarly_eq_none_iff {jump : JumpKind} :
    targetEarly jump label (around.flatMap Stmt.constructs) = none ↔
      ∃ s, around.find? (Stmt.isMeant jump label) = some s ∧ (jump = .continues → s.kind.isLoop = true) := by
  induction around with
  | nil => exact ⟨fun h => (by cases h), fun ⟨_, h, _⟩ => (by cases h)⟩
  | cons s around ih =>
    rw [List.flatMap_cons, targetEarly_constructs, List.find?_cons]
    cases s.isMeant jump label with
    | false => exact ih
    | true =>
      rw [if_pos rfl]
      cases jump <;> cases hloop : s.kind.isLoop <;> simp [hloop]

theorem breaks_illegal_iff {kind : UnitKind} :
    (Jump.breaks label).Illegal kind around ↔ targetEarly .breaks label (around.flatMap Stmt.constructs) ≠ none := by
  rw [ne_eq, targetEarly_eq_none_iff]
  cases label with
  | none =>
    have hnone : around.find? (Stmt.isMeant .breaks none) = none ↔ (Jump.breaks none).Illegal kind around := by
      simp [Stmt.isMeant, Jump.Illegal]
    rw [← hnone]
    cases around.find? (Stmt.isMeant .breaks none) <;> simp
  | some name =>
    have hnone : around.find? (Stmt.isMeant .breaks (some name)) = none ↔ (Jump.breaks (some name)).Illegal kind around := by
      simp [Stmt.isMeant, Jump.Illegal]
    rw [← hnone]
    cases around.find? (Stmt.isMeant .breaks (some name)) <;> simp

theorem continues_illegal_iff {kind : UnitKind} :
    (Jump.continues label).Illegal kind around ↔ targetEarly .continues label (around.flatMap Stmt.constructs) ≠ none := by
  rw [ne_eq, targetEarly_eq_none_iff]
  cases label with
  | none =>
    have hnone : around.find? (Stmt.isMeant .continues none) = none ↔ (Jump.continues none).Illegal kind around := by
      simp [Stmt.isMeant, Jump.Illegal]
    rw [← hnone]
    cases hfind : around.find? (Stmt.isMeant .continues none) with
    | none => simp
    | some s =>
      have hmeant : Stmt.isMeant .continues none s = true := List.find?_some hfind
      have hloop : s.kind.isLoop = true := hmeant
      simp [hloop]
  | some name =>
    have hmeant : Stmt.isMeant .continues (some name) = fun s => decide (name ∈ s.labels) := by
      funext s
      simp [Stmt.isMeant]
    rw [hmeant, Jump.Illegal]
    cases around.find? (name ∈ ·.labels) with
    | none => simp
    | some s => simp

/-! ## Statements -/

namespace Lowering.Site

def under (p : Site) (labels : List String) : Site :=
  if labels.isEmpty then p else p.within (.breakable labels .labelled false)

theorem kind_under (p : Site) (labels : List String) : (p.under labels).kind = p.kind := by
  rw [under]
  split <;> rfl

namespace In

variable {p : Site} {around : List Stmt}

theorem start (kind : UnitKind) : (Site.mk kind []).In [] := rfl

theorem attempt (h : p.In around) (v : Option Fault) : (p.within (.attempt v)).In around := h

theorem scope (h : p.In around) : (p.within .scope).In around := h

theorem handler (h : p.In around) (finalized : Bool) (v : Option Fault) :
    ((if finalized then p.within (.attempt v) else p).within .scope).In around := by
  cases finalized <;> exact h

theorem under (h : p.In around) (labels : List String) :
    (p.under labels).around.filter Around.isBreakable =
      (if labels.isEmpty then [] else [Around.breakable labels .labelled false]) ++ around.flatMap Stmt.constructs := by
  rw [Site.under]
  split
  · exact h
  · exact congrArg (List.cons _) h

theorem plain (h : p.In around) (labels : List String) (span : Span) (kind : StmtKind) (hloop : kind.isLoop = false)
    (hswitch : kind.isSwitch = false) : (p.under labels).In (⟨labels, span, kind⟩ :: around) := by
  rw [In, h.under, List.flatMap_cons, Stmt.constructs, hloop, hswitch]
  rfl

theorem loop (h : p.In around) (labels : List String) (span : Span) (kind : StmtKind) (hloop : kind.isLoop = true) :
    ((p.under labels).within (.breakable labels .loop true)).In (⟨labels, span, kind⟩ :: around) := by
  have hunder := congrArg (List.cons (Around.breakable labels .loop true)) (h.under labels)
  rw [In, List.flatMap_cons, Stmt.constructs, hloop]
  exact hunder

theorem switch (h : p.In around) (labels : List String) (span : Span) (kind : StmtKind) (hloop : kind.isLoop = false)
    (hswitch : kind.isSwitch = true) :
    ((p.under labels).within (.breakable labels .switch false)).In (⟨labels, span, kind⟩ :: around) := by
  have hunder := congrArg (List.cons (Around.breakable labels .switch false)) (h.under labels)
  rw [In, List.flatMap_cons, Stmt.constructs, hloop, hswitch]
  exact hunder

end In

end Lowering.Site

def Legal (kind : UnitKind) (j : Jump) (around : List Stmt) : Prop := ¬j.Illegal kind around

def Lowering.Site.Calm (p : Site) : Prop := ∀ v, Around.attempt v ∈ p.around → Harmless v

namespace Lowering.Site.Calm

variable {p : Site}

theorem finalizers (h : p.Calm) : Harmless (finalizersEarly p.around) := by
  obtain ⟨kind, as⟩ := p
  induction as with
  | nil => exact harmless_none
  | cons a as ih =>
    have hrest := ih fun v hv => h v (.tail _ hv)
    cases a with
    | breakable => exact hrest
    | attempt v => exact (h v (.head _)).or hrest
    | scope => exact hrest

theorem left (h : p.Calm) (jump : JumpKind) (label : Option String) : Harmless (leftEarly jump label p.around) := by
  obtain ⟨kind, as⟩ := p
  induction as with
  | nil => exact harmless_none
  | cons a as ih =>
    have hrest := ih fun v hv => h v (.tail _ hv)
    cases a with
    | breakable labels kind continues =>
      simp only [leftEarly]
      split
      · exact harmless_none
      · exact hrest
    | attempt v => exact (h v (.head _)).or hrest
    | scope => exact hrest

theorem within (h : p.Calm) {a : Around} (ha : ∀ v, a = .attempt v → Harmless v) : (p.within a).Calm := by
  intro v hv
  rcases List.mem_cons.1 hv with rfl | hv
  · exact ha v rfl
  · exact h v hv

theorem breakable (h : p.Calm) (labels : List String) (kind : BreakableKind) (continues : Bool) :
    (p.within (.breakable labels kind continues)).Calm :=
  h.within fun _ hv => by cases hv

theorem scope (h : p.Calm) : (p.within .scope).Calm := h.within fun _ hv => by cases hv

theorem attempt (h : p.Calm) {v : Option Fault} (hv : Harmless v) : (p.within (.attempt v)).Calm :=
  h.within fun _ heq => Around.attempt.inj heq ▸ hv

theorem under (h : p.Calm) (labels : List String) : (p.under labels).Calm := by
  rw [Site.under]
  split
  · exact h
  · exact h.breakable _ _ _

theorem handler (h : p.Calm) (finalized : Bool) {v : Option Fault} (hv : Harmless v) :
    ((if finalized then p.within (.attempt v) else p).within .scope).Calm := by
  cases finalized with
  | false => exact h.scope
  | true => exact (h.attempt hv).scope

end Lowering.Site.Calm

/-- The fault of something with these jumps and functions: without one the jumps are legal and the
functions have none, and it is one of syntax only if a jump is illegal or a function has one. -/
structure Tells (V : FunctionTree → Option Fault) (p : Site) (v : Option Fault) (os : List Occurrence) : Prop where
  sound : v = none → Sound (Legal p.kind) (V · = none) os
  harmless : p.Calm → Sound (Legal p.kind) (Harmless <| V ·) os → Harmless v

theorem Fair.tells {v : Option Fault} {fs : List FunctionTree} (h : Fair V v fs) (p : Site) :
    Tells V p v (fs.map .function) :=
  ⟨fun hv => Sound.functions.2 (h.clear hv), fun _ hs => h.harmless (Sound.functions.1 hs)⟩

namespace Tells

variable {p q : Site} {v w : Option Fault} {os os' : List Occurrence}

theorem nil : Tells V p none [] := ⟨fun _ => .nil, fun _ _ => harmless_none⟩

theorem or (hv : Tells V p v os) (hw : Tells V p w os') : Tells V p (v.or w) (os ++ os') where
  sound h := Sound.append.2 ⟨hv.sound (Option.or_eq_none_iff.1 h).1, hw.sound (Option.or_eq_none_iff.1 h).2⟩
  harmless hp hs := (hv.harmless hp (Sound.append.1 hs).1).or (hw.harmless hp (Sound.append.1 hs).2)

theorem of_mem_iff (hv : Tells V p v os) (h : ∀ o, o ∈ os' ↔ o ∈ os) : Tells V p v os' := by
  have hsound : ∀ {J : Jump → List Stmt → Prop} {P : FunctionTree → Prop}, Sound J P os' ↔ Sound J P os := by
    simp only [Sound, h, implies_true]
  exact ⟨fun hn => hsound.2 (hv.sound hn), fun hp hs => hv.harmless hp (hsound.1 hs)⟩

theorem of_site (hv : Tells V q v os) (hkind : q.kind = p.kind) (hcalm : p.Calm → q.Calm) : Tells V p v os where
  sound h := hkind ▸ hv.sound h
  harmless hp hs := hv.harmless (hcalm hp) (hkind ▸ hs)

theorem loop {head : LoopHead} (h : head.Respects) (hb : Tells V p v os) :
    Tells V p ((initEarly V head).or (roundsEarly V head v)) (head.functions.map .function ++ os) := by
  obtain ⟨_, _, _, _, hinit, hkey, hupdate, htest, hmem⟩ := head_fair h
  have hround := (hkey.tells p).or hb
  rw [roundsEarly]
  split
  · refine ((hinit.tells p).or (hround.or ((hupdate.tells p).or (htest.tells p)))).of_mem_iff fun o => ?_
    simp only [List.mem_append, List.mem_map, hmem, or_and_right, exists_or]
    grind
  · refine ((hinit.tells p).or ((htest.tells p).or (hround.or (hupdate.tells p)))).of_mem_iff fun o => ?_
    simp only [List.mem_append, List.mem_map, hmem, or_and_right, exists_or]
    grind

theorem jump {j : Jump} {around : List Stmt} {kind : JumpKind} {label : Option String} (hp : p.In around)
    (hj : j.Illegal p.kind around ↔ targetEarly kind label (around.flatMap Stmt.constructs) ≠ none) :
    Tells V p ((targetEarly kind label p.around).or (leftEarly kind label p.around)) [.jump j around] := by
  rw [← hp, targetEarly_filter] at hj
  constructor
  · intro h
    exact Sound.jump.2 fun hillegal => hj.1 hillegal (Option.or_eq_none_iff.1 h).1
  · intro hcalm hs
    have htarget : targetEarly kind label p.around = none :=
      Decidable.not_not.1 fun hne => Sound.jump.1 hs (hj.2 hne)
    rw [htarget]
    exact hcalm.left _ _

theorem returns {around : List Stmt} {fs : List FunctionTree} (h : Fair V v fs) :
    Tells V p (if p.kind == .function then v.or (finalizersEarly p.around) else some (.source .illegalReturn))
      (.jump .returns around :: fs.map .function) := by
  constructor
  · intro hnone
    split at hnone
    case isTrue hkind =>
      refine Sound.cons_jump.2 ⟨fun hne => hne (beq_iff_eq.1 hkind), ?_⟩
      exact Sound.functions.2 (h.clear (Option.or_eq_none_iff.1 hnone).1)
    case isFalse => cases hnone
  · intro hcalm hs
    obtain ⟨hj, hs⟩ := Sound.cons_jump.1 hs
    have hkind : p.kind = .function := Decidable.not_not.1 hj
    rw [hkind]
    exact (h.harmless (Sound.functions.1 hs)).or hcalm.finalizers

theorem attempt {final : Option Fault} {finalized : Bool} {block handler finalizer : List Occurrence}
    (hb : Tells V (p.within (.attempt final)) v block)
    (hh : Tells V ((if finalized then p.within (.attempt final) else p).within .scope) w handler)
    (hf : Tells V p final finalizer) : Tells V p (v.or (w.or final)) (block ++ (handler ++ finalizer)) := by
  have hkind : ((if finalized then p.within (.attempt final) else p).within .scope).kind = p.kind := by
    cases finalized <;> rfl
  constructor
  · intro h
    obtain ⟨hv, h⟩ := Option.or_eq_none_iff.1 h
    obtain ⟨hw, hfinal⟩ := Option.or_eq_none_iff.1 h
    exact Sound.append.2 ⟨hb.sound hv, Sound.append.2 ⟨hkind ▸ hh.sound hw, hf.sound hfinal⟩⟩
  · intro hcalm hs
    obtain ⟨hsb, hs⟩ := Sound.append.1 hs
    obtain ⟨hsh, hsf⟩ := Sound.append.1 hs
    have hfinal := hf.harmless hcalm hsf
    exact (hb.harmless (hcalm.attempt hfinal) hsb).or ((hh.harmless (hcalm.handler _ hfinal) (hkind ▸ hsh)).or hfinal)

theorem clause {test body tests bodies : Option Fault} {ot ob : List Occurrence} (ht : Tells V p test ot)
    (hb : Tells V p body ob) (hrest : Tells V p (tests.or bodies) os) :
    Tells V p ((test.or tests).or (body.or bodies)) (ot ++ (ob ++ os)) := by
  rw [Option.or_assoc]
  refine ht.or ?_
  cases tests with
  | none => exact hb.or hrest
  | some f => exact ⟨fun h => (by cases h), fun hcalm hs => hrest.harmless hcalm (Sound.append.1 hs).2⟩

end Tells

mutual

theorem Stmt.tells : ∀ (s : Stmt) {p : Site} {around : List Stmt}, p.In around → s.Respects →
    Tells V p (s.early V p) (s.occurrences around)
  | ⟨labels, span, kind⟩, p, _, hp, h =>
    (StmtKind.tells kind span hp h).of_site (p.kind_under labels) fun hcalm => hcalm.under labels
termination_by structural x => x

theorem StmtKind.tells : ∀ (kind : StmtKind) {labels : List String} (span : Span) {p : Site} {around : List Stmt},
    p.In around → kind.Respects → Tells V (p.under labels) (kind.early V labels (p.under labels))
      (kind.occurrences (⟨labels, span, kind⟩ :: around))
  | .var _, _, _, _, _, _, h => (declarators_fair h).tells _
  | .function _, _, _, _, _, _, _ => .nil
  | .expression e, _, _, _, _, _, h => (e.fair h).tells _
  | .block body, _, _, _, _, hp, h => body_tells body (hp.plain _ _ _ rfl rfl) h
  | .branch test consequent alternate, _, _, _, _, hp, ⟨ht, hc, ha⟩ =>
    ((test.fair ht).tells _).or ((Stmt.tells consequent (hp.plain _ _ _ rfl rfl) hc).or
      (alternate_tells alternate (hp.plain _ _ _ rfl rfl) ha))
  | .loop _ body, _, _, _, _, hp, ⟨hh, hb⟩ =>
    .loop hh ((Stmt.tells body (hp.loop _ _ _ rfl) hb).of_site rfl fun hcalm => hcalm.breakable _ _ _)
  | .switch discriminant cases, _, _, _, _, hp, ⟨hd, hc⟩ =>
    ((discriminant.fair hd).tells _).or
      ((cases_tells cases (hp.switch _ _ _ rfl rfl) hc).of_site rfl fun hcalm => hcalm.breakable _ _ _)
  | .returns _, _, _, _, _, _, h => .returns (option_fair h)
  | .breaks _, _, _, _, _, hp, _ => .jump (hp.plain _ _ _ rfl rfl) breaks_illegal_iff
  | .continues _, _, _, _, _, hp, _ => .jump (hp.plain _ _ _ rfl rfl) continues_illegal_iff
  | .throws value, _, _, _, _, _, h => (value.fair h).tells _
  | .attempt block handler finalizer, _, _, _, _, hp, ⟨_, hb, hh, hf⟩ =>
    have hin := hp.plain _ _ _ rfl rfl
    .attempt (body_tells block (hin.attempt _) hb) (handler_tells handler (hin.handler _ _) hh)
      (finalizer_tells finalizer hin hf)
  | .scoped object body, _, _, _, _, hp, ⟨ho, hb⟩ =>
    ((object.fair ho).tells _).or
      ((Stmt.tells body (hp.plain _ _ _ rfl rfl).scope hb).of_site rfl fun hcalm => hcalm.scope)
  | .empty, _, _, _, _, _, _ => .nil
termination_by structural x => x

theorem alternate_tells : ∀ (s : Option Stmt) {p : Site} {around : List Stmt}, p.In around → alternateRespects s →
    Tells V p (alternateEarly V s p) (alternateOccurrences s around)
  | none, _, _, _, _ => .nil
  | some s, _, _, hp, h => Stmt.tells s hp h
termination_by structural x => x

theorem handler_tells : ∀ (c : Option CatchClause) {p : Site} {around : List Stmt}, p.In around → handlerRespects c →
    Tells V p (handlerEarly V c p) (handlerOccurrences c around)
  | none, _, _, _, _ => .nil
  | some ⟨_, body⟩, _, _, hp, h => body_tells body hp h
termination_by structural x => x

theorem finalizer_tells : ∀ (b : Option (List Stmt)) {p : Site} {around : List Stmt}, p.In around →
    finalizerRespects b → Tells V p (finalizerEarly V b p) (finalizerOccurrences b around)
  | none, _, _, _, _ => .nil
  | some body, _, _, hp, h => body_tells body hp h
termination_by structural x => x

theorem body_tells : ∀ (ss : List Stmt) {p : Site} {around : List Stmt}, p.In around → bodyRespects ss →
    Tells V p (bodyEarly V ss p) (bodyOccurrences ss around)
  | [], _, _, _, _ => .nil
  | s :: ss, _, _, hp, h => (Stmt.tells s hp h.1).or (body_tells ss hp h.2)
termination_by structural x => x

theorem cases_tells : ∀ (cs : List SwitchCase) {p : Site} {around : List Stmt}, p.In around → casesRespect cs →
    Tells V p ((clauseTestsEarly V (cs.map SwitchCase.test)).or ((casesEarly V cs p).foldr Option.or none))
      (casesOccurrences cs around)
  | [], _, _, _, _ => .nil
  | ⟨_, body⟩ :: cs, p, _, hp, ⟨ht, hb, hc⟩ =>
    .clause ((option_fair ht).tells p) (body_tells body hp hb) (cases_tells cs hp hc)
termination_by structural x => x

end

end

/-! ## Units -/

section

variable {V : FunctionTree → Option Fault}
variable {params : List Identifier} {body : List Stmt}

theorem functionsEarly_fair : ∀ fs : List (String × FunctionTree), Fair V (functionsEarly V fs) (fs.map Prod.snd)
  | [] => .nil
  | (_, f) :: fs => (Fair.function f).or (functionsEarly_fair fs)

abbrev entryFunctions (params : List Identifier) (body : List Stmt) : List (String × FunctionTree) :=
  initialFunctions (declarations body) (entryTable params (declarations body)).entries

theorem mem_entryFunctions {f : FunctionTree} :
    f ∈ (entryFunctions params body).map Prod.snd ↔ ∃ name, lastFunction (declarations body).toList name = some f := by
  simp only [List.mem_map, Prod.exists, exists_eq_right, mem_initialFunctions]

theorem not_hasIllegalJump {P : FunctionTree → Prop} {kind : UnitKind}
    (hV : ∀ f : FunctionTree, P f → f.Respects → V f = none → ¬HasIllegalJump .function f.body)
    (hbody : bodyHolds P body) (hrespects : bodyRespects body)
    (h : unitEarly V kind (entryFunctions params body) body = none) :
    ¬HasIllegalJump kind body := by
  obtain ⟨hfunctions, hearly⟩ := Option.or_eq_none_iff.1 h
  have hholds := bodyRespects_holds body hrespects
  have hsound := (body_tells body (.start kind) hrespects).sound hearly
  intro hjump
  cases hjump with
  | here hj hillegal => exact hsound.1 _ _ hj hillegal
  | expression hf hin =>
    exact hV _ ((body_occurrences_hold body [] hbody).2 _ hf) ((body_occurrences_hold body [] hholds).2 _ hf)
      (hsound.2 _ hf) hin
  | declaration hf hin =>
    have hnone := (functionsEarly_fair _).clear hfunctions _ (mem_entryFunctions.2 ⟨_, hf⟩)
    exact hV _ (lastFunction_holds hbody hf) (lastFunction_holds hholds hf) hnone hin

theorem functionEarly_eq_none : ∀ (n : Nat) (f : FunctionTree), f.Within n → f.Respects → functionEarly n f = none →
    ¬HasIllegalJump .function f.body
  | 0, _, h, _, _ => h.elim
  | n + 1, ⟨_, _, _, _⟩, h, hr, hnone => not_hasIllegalJump (functionEarly_eq_none n) h hr hnone

theorem unit_harmless {kind : UnitKind}
    (hV : ∀ f : FunctionTree, f.Respects → ¬HasIllegalJump .function f.body → Harmless (V f))
    (hbody : bodyRespects body) (h : ¬HasIllegalJump kind body) :
    Harmless (unitEarly V kind (entryFunctions params body) body) := by
  have hholds := bodyRespects_holds body hbody
  refine ((functionsEarly_fair _).harmless fun f hf => ?_).or ((body_tells body (.start kind) hbody).harmless ?_ ⟨?_, ?_⟩)
  · obtain ⟨name, hlast⟩ := mem_entryFunctions.1 hf
    exact hV f (lastFunction_holds hholds hlast) fun hin => h (.declaration hlast hin)
  · intro v hv
    cases hv
  · exact fun j around hj hillegal => h (.here hj hillegal)
  · intro f hf
    exact hV f ((body_occurrences_hold body [] hholds).2 f hf) fun hin => h (.expression hf hin)

theorem functionEarly_harmless : ∀ (n : Nat) (f : FunctionTree), f.Respects → ¬HasIllegalJump .function f.body →
    Harmless (functionEarly n f)
  | 0, _, _, _ => harmless_none
  | n + 1, ⟨_, _, _, _⟩, h, hlegal => unit_harmless (functionEarly_harmless n) h hlegal

/-- **A program that was read and fits its pools is refused for its syntax exactly if a jump in it
is illegal.** -/
theorem compile_syntaxError_iff {source : String} {p : Program} (hp : Program.parse source = .ok p)
    {o : LoweringOptions} (hfits : ∀ f, compile o p = .error f → f.kind ≠ .rangeError) :
    (∃ f, compile o p = .error f ∧ f.kind = .syntaxError) ↔ HasIllegalJump .global p.body := by
  have hguarded := Program.parse_guarded hp
  constructor
  · rintro ⟨f, hf, hkind⟩
    by_contra hlegal
    have hharmless : Harmless (p.early .global) :=
      unit_harmless (functionEarly_harmless _) (Program.parse_respects hp) hlegal
    rcases early_of_error hguarded hf with hfull | hsome
    · cases f with
      | limit => cases hkind
      | _ => cases hfull
    · exact hharmless f hsome hkind
  · intro hjump
    cases hc : compile o p with
    | ok u =>
      have hearly : p.early .global = none := early_of_ok hguarded hc
      exact absurd hjump (not_hasIllegalJump (functionEarly_eq_none _) (bodyHolds_within hguarded)
        (Program.parse_respects hp) hearly)
    | error f =>
      refine ⟨f, rfl, ?_⟩
      rcases lowerProgram_ofProgram hguarded hc with h | h
      · exact h
      · exact absurd h (hfits f hc)

end

def Program.refusal? (o : LoweringOptions) (p : Program) : Option Fault :=
  match compile o p with
  | .ok _ => none
  | .error f => some f

theorem Program.compile_of_refusal? {o : LoweringOptions} {p : Program} {f : Fault} (h : p.refusal? o = some f) :
    compile o p = .error f := by
  unfold refusal? at h
  split at h
  · cases h
  · rename_i g hg
    rwa [Option.some.inj h] at hg

/-- The label of the `break` is on the loop of another function. -/
theorem compile_syntaxError_inside :
    ∃ p, Program.parse "a: for (;;) \x7b f(function () \x7b try \x7b break a; \x7d finally \x7b g(); \x7d \x7d); \x7d" = .ok p ∧
      (∀ f, compile .standard p = .error f → f.kind ≠ .rangeError) ∧
      (∃ f, compile .standard p = .error f ∧ f.kind = .syntaxError) ∧ HasIllegalJump .global p.body := by
  have hrefused : (Program.parse
      "a: for (;;) \x7b f(function () \x7b try \x7b break a; \x7d finally \x7b g(); \x7d \x7d); \x7d").toOption.any
        (fun p => (p.refusal? .standard).any fun f => f.kind == .syntaxError) = true := by decide +kernel
  obtain ⟨p, hp, hrefused⟩ := (Option.any_eq_true _ _).1 hrefused
  obtain ⟨f, hc, hkind⟩ := (Option.any_eq_true _ _).1 hrefused
  have hp := eq_ok_of_toOption hp
  have hc := Program.compile_of_refusal? hc
  have hkind : f.kind = .syntaxError := eq_of_beq hkind
  have hfits : ∀ g, compile .standard p = .error g → g.kind ≠ .rangeError := by
    intro g hg
    cases hc.symm.trans hg
    rw [hkind]
    decide
  exact ⟨p, hp, hfits, ⟨f, hc, hkind⟩, (compile_syntaxError_iff hp hfits).1 ⟨f, hc, hkind⟩⟩

/-- Two declarations of functions, the first of which has a `break` alone. -/
def breaksFirst : List Stmt → Bool
  | [⟨_, _, .function ⟨some _, _, [⟨_, _, .breaks none⟩], _⟩⟩, ⟨_, _, .function _⟩] => true
  | _ => false

/-- Of two functions with one name the first is not read, and its `break` does not matter. -/
theorem compile_replaced :
    ∃ p u d f, Program.parse "function f() \x7b break; \x7d function f() \x7b return 1; \x7d" = .ok p ∧
      compile .standard p = .ok u ∧ d ∈ declarations p.body ∧ d.function = some f ∧
      HasIllegalJump .function f.body := by
  have hread : (Program.parse "function f() \x7b break; \x7d function f() \x7b return 1; \x7d").toOption.any
      (fun p => (compile .standard p).toOption.isSome && breaksFirst p.body) = true := by decide +kernel
  obtain ⟨p, hp, hread⟩ := (Option.any_eq_true _ _).1 hread
  obtain ⟨hok, hbody⟩ := Bool.and_eq_true_iff.1 hread
  obtain ⟨u, hu⟩ := Option.isSome_iff_exists.1 hok
  have hp := eq_ok_of_toOption hp
  have hc := eq_ok_of_toOption hu
  unfold breaksFirst at hbody
  split at hbody
  case h_2 => cases hbody
  case h_1 id params labels span fspan _ _ g hshape =>
    refine ⟨p, u, ⟨id, some ⟨some id, params, [⟨labels, span, .breaks none⟩], fspan⟩⟩, _, hp, hc, ?_, rfl, ?_⟩
    · rw [hshape, declarations]
      simp [hoistAll, Stmt.hoist, StmtKind.hoist, FunctionTree.declaration]
    · have hj : Occurrence.jump (.breaks none) [⟨labels, span, .breaks none⟩] ∈
          bodyOccurrences [⟨labels, span, .breaks none⟩] [] := List.mem_singleton.2 rfl
      refine .here hj fun s hs => ?_
      cases List.mem_singleton.1 hs
      exact ⟨rfl, rfl⟩

end ScriptEngine
