/-
Where the declarations of code given to `eval` go. The nearest record that grows
takes all its names, and the closures of its functions follow by assignment,
which stops at the first record that binds the name. The two meet in one record
when nothing in front of it binds the name of a function. Main statement:
`eval_declarations`.
-/
import ScriptEngine.Proofs.Heap.Naming
import ScriptEngine.Proofs.Heap.Turns
import ScriptEngine.Proofs.Scope.Declarations
import ScriptEngine.Proofs.Simulation.Instruction

namespace ScriptEngine

namespace Store

/-! ## The record that takes declarations -/

/-- Two stores that differ in what one growing record binds, and in new functions. -/
structure Within (v : RecordRef) (s t : Store) : Prop where
  growing : t.Growing v
  records : ∀ w, w ≠ v → t.record w = s.record w
  size : t.records.size = s.records.size
  objects : t.objects = s.objects
  callables : ∀ g : FunctionRef, g.index < s.callables.size → t.callable g = s.callable g
  le : s.callables.size ≤ t.callables.size

variable {s t u : Store} {v w : RecordRef} {name : String}

theorem Within.refl (h : s.Growing v) : Within v s s :=
  ⟨h, fun _ _ => rfl, rfl, rfl, fun _ _ => rfl, Nat.le_refl _⟩

theorem Within.trans (h : Within v s t) (h' : Within v t u) : Within v s u where
  growing := h'.growing
  records w hw := (h'.records w hw).trans (h.records w hw)
  size := h'.size.trans h.size
  objects := h'.objects.trans h.objects
  callables g hg := (h'.callables g (Nat.lt_of_lt_of_le hg h.le)).trans (h.callables g hg)
  le := Nat.le_trans h.le h'.le

theorem Within.binds_eq (h : Within v s t) (hw : w ≠ v) : t.binds w name = s.binds w name := by
  simp only [binds, place?, h.records w hw]
  cases s.record w with
  | declarative names slots => rfl
  | dynamic bindings => rfl
  | object o =>
    have ho : t.object o = s.object o := by rw [object, object, h.objects]
    simp only [ho]

theorem Growing.proper (h : s.Growing v) : s.Proper v := by
  obtain ⟨bindings, hb⟩ := h.bindings
  exact ⟨h.lt, hb ▸ trivial, fun o ho => by cases hb.symm.trans ho⟩

theorem Growing.modifyRecord (h : s.Growing v) {f : Record → Record} {bindings bindings'}
    (hb : s.record v = .dynamic bindings) (hf : f (.dynamic bindings) = .dynamic bindings') :
    Within v s (s.modifyRecord v f) := by
  have hv : (s.modifyRecord v f).record v = .dynamic bindings' := by
    rw [record_modifyRecord s v f v h.lt, if_pos rfl, hb, hf]
  have hsize : (s.modifyRecord v f).records.size = s.records.size := Array.size_modify
  refine ⟨⟨hsize ▸ h.lt, by rw [hv]; rfl⟩, fun w hw => ?_, hsize, rfl, fun _ _ => rfl, Nat.le_refl _⟩
  by_cases hlt : w.index < s.records.size
  · rw [record_modifyRecord s v f w hlt, if_neg hw]
  · have hlt := Nat.le_of_not_lt hlt
    rw [record, record, Array.getD_eq_getD_getElem?, Array.getD_eq_getD_getElem?, Array.getElem?_eq_none hlt,
      Array.getElem?_eq_none (hsize ▸ hlt)]

theorem Growing.declare (h : s.Growing v) (name : String) (deletable : Bool) :
    Within v s (s.declare v name deletable).2 ∧ ∀ name', (s.declare v name deletable).2.valueOf? v name' =
      if name = name' then some ((s.valueOf? v name).getD .undefined) else s.valueOf? v name' := by
  obtain ⟨bindings, hb⟩ := h.bindings
  refine ⟨h.modifyRecord hb rfl, fun name' => ?_⟩
  rw [(updated_declare h.lt hb name deletable).value]
  simp only [true_and, eq_comm]

theorem Growing.setVariable (h : s.Growing v) (hn : s.binds v name = true) (x : Value) :
    (s.setVariable v name x).1 = true ∧ Within v s (s.setVariable v name x).2 ∧
      ∀ name', (s.setVariable v name x).2.valueOf? v name' = if name = name' then some x else s.valueOf? v name' := by
  obtain ⟨bindings, hb⟩ := h.bindings
  obtain ⟨t, ht, hset⟩ := updated_setVariable h.proper hn x
  have hn : bindings.contains name = true := by
    rw [binds, place?, hb] at hn
    by_contra hc
    simp [hc] at hn
  have hwithin : Within v s (s.setVariable v name x).2 := by
    have hplace : s.place? v name = some .binding := by
      rw [place?, hb]
      exact if_pos hn
    unfold Store.setVariable
    generalize s.place? v name = place at hplace ⊢
    subst hplace
    exact h.modifyRecord hb rfl
  refine ⟨by rw [ht], hwithin, fun name' => ?_⟩
  rw [ht, hset.value]
  simp only [true_and, eq_comm]

theorem Growing.declareAll (names : List String) (deletable : Bool) (h : s.Growing v) :
    Within v s (names.foldl (fun s name => (s.declare v name deletable).2) s) ∧
      ∀ name, (names.foldl (fun s name => (s.declare v name deletable).2) s).valueOf? v name =
        if name ∈ names then some ((s.valueOf? v name).getD .undefined) else s.valueOf? v name := by
  induction names generalizing s with
  | nil => exact ⟨.refl h, fun _ => by simp⟩
  | cons first names ih =>
    obtain ⟨hfirst, hvalue⟩ := h.declare first deletable
    obtain ⟨hrest, hvalues⟩ := ih hfirst.growing
    refine ⟨hfirst.trans hrest, fun name => ?_⟩
    rw [List.foldl_cons, hvalues, hvalue]
    by_cases heq : first = name
    · by_cases hmem : name ∈ names <;> simp [heq, hmem]
    · by_cases hmem : name ∈ names <;> simp [heq, Ne.symm heq, hmem]

theorem variableScope_append {front rest : Chain} (hfront : ∀ w ∈ front, (s.record w).isDynamic = false)
    (hv : (s.record v).isDynamic = true) : s.variableScope (front ++ v :: rest) = v :: rest := by
  induction front with
  | nil => cases rest <;> simp [variableScope, hv]
  | cons w front ih =>
    have hne : front ++ v :: rest ≠ [] := by simp
    obtain ⟨x, xs, hxs⟩ := List.exists_cons_of_ne_nil hne
    rw [List.cons_append, hxs, variableScope, hfront w List.mem_cons_self, ← hxs,
      ih fun x hx => hfront x (List.mem_cons_of_mem w hx)]
    · rfl
    · simp

theorem Growing.assign {front : Chain} (h : s.Growing v) (hn : s.binds v name = true)
    (hfront : ∀ w ∈ front, s.binds w name = false) (rest : Chain) (x : Value) :
    ∃ t, s.assign (front ++ v :: rest) name x = (true, t) ∧ Within v s t ∧
      ∀ name', t.valueOf? v name' = if name = name' then some x else s.valueOf? v name' := by
  obtain ⟨hset, hwithin, hvalue⟩ := h.setVariable hn x
  refine ⟨_, ?_, hwithin, hvalue⟩
  rw [Store.assign, find_append hfront hn]
  exact Prod.ext hset rfl

theorem Growing.addCallable (h : s.Growing v) (c : Callable) :
    ∃ g t, s.addCallable c = (g, t) ∧ Within v s t ∧ s.callables.size ≤ g.index ∧ g.index < t.callables.size ∧
      t.callable g = c ∧ ∀ w name, t.valueOf? w name = s.valueOf? w name := by
  refine ⟨_, _, rfl, ⟨⟨h.lt, h.dynamic⟩, fun _ _ => rfl, rfl, rfl, fun g hg => ?_, by simp⟩, Nat.le_refl _, by simp, ?_,
    fun _ _ => rfl⟩
  · simp [callable, Array.getD_eq_getD_getElem?, Array.getElem?_push, Nat.ne_of_lt hg]
  · simp [callable, Array.getD_eq_getD_getElem?]

end Store

/-! ## Filling in functions -/

section

open Layout

variable {c : Setting} (chain : Chain) (receiver : Value) (callers : List Frame)

/-- A program that stands between two declarations of functions. -/
def standing (code : CodeUnit) (chain : Chain) (receiver : Value) (position : Nat) : Frame :=
  { Frame.start code chain receiver .program with position }

theorem Machine.step_of_proceed {m : Machine} {i : Instruction} {a : Activity} (hi : m.next? = some i)
    (hx : i.exec m.activity = .ok .proceed a) : m.step = .run ⟨a.realm, a.frame, m.callers⟩ := by
  rw [step_eq hi, hx]

theorem step_closure {f : FunctionTree} {a b : Point} (henv : c.env = [])
    (h : Layout.closure c ⟨f, false, c.strict⟩ a b) (r : Realm) :
    b = ⟨a.pc + 1, a.temps⟩ ∧ ∃ u, Lowered c.options [] ⟨f, false, c.strict⟩ u ∧
      Machine.step ⟨r, standing c.unit chain receiver a.pc, callers⟩ =
        .run ⟨{ r with store := (r.store.addCallable (.closure u chain)).2 },
          (standing c.unit chain receiver (a.pc + 1)).push (.function (r.store.addCallable (.closure u chain)).1),
          callers⟩ := by
  obtain ⟨k, u, hk, hl, hi, hb⟩ := h
  rw [henv] at hl
  have hown : u.bindsOwnName = false := congrArg CodeUnit.bindsOwnName hl.unit.1
  refine ⟨hb, u, hl, ?_⟩
  have hexec : Instruction.exec ⟨.closure, some (.function k)⟩ ⟨r, standing c.unit chain receiver (a.pc + 1)⟩ =
      .ok .proceed ⟨{ r with store := (r.store.addCallable (.closure u chain)).2 },
        (standing c.unit chain receiver (a.pc + 1)).push (.function (r.store.addCallable (.closure u chain)).1)⟩ := by
    have hk' : (standing c.unit chain receiver (a.pc + 1)).code.functions[k]? = some u := hk
    simp only [Instruction.exec, bind, EStateM.bind, Exec.readFrame, hk', Exec.closure, hown]
    rfl
  exact Machine.step_of_proceed (m := ⟨r, standing c.unit chain receiver a.pc, callers⟩) hi hexec

theorem step_store {name : String} {x : Value} {t : Store} {a b : Point} (henv : c.env = [])
    (h : store c name a b) (r : Realm) (ht : r.store.assign chain name x = (true, t)) :
    b = ⟨a.pc + 1, a.temps⟩ ∧
      Machine.step ⟨r, (standing c.unit chain receiver a.pc).push x, callers⟩ =
        .run ⟨{ r with store := t }, (standing c.unit chain receiver (a.pc + 1)).push x, callers⟩ := by
  rw [store, henv] at h
  obtain ⟨k, hk, hi, hb⟩ := h
  refine ⟨hb, ?_⟩
  have hstore : Exec.storeName name c.strict ⟨r, (standing c.unit chain receiver (a.pc + 1)).push x⟩ =
      .ok .proceed ⟨{ r with store := t }, (standing c.unit chain receiver (a.pc + 1)).push x⟩ := by
    have hscope : (standing c.unit chain receiver (a.pc + 1)).scope = chain := rfl
    simp only [Exec.storeName, Exec.peek, Exec.takeOff, Exec.readFrame, Exec.withStore, Exec.inRealm, Realm.withStore,
      bind, EStateM.bind, hscope, Frame.push, List.head?_cons, ht]
    rfl
  have hname : ∀ op, Exec.nameOperand ⟨op, some (.property k)⟩ ⟨r, (standing c.unit chain receiver (a.pc + 1)).push x⟩ =
      .ok name ⟨r, (standing c.unit chain receiver (a.pc + 1)).push x⟩ := fun op => nameOperand_ok op hk
  have hexec : Instruction.exec ⟨if c.strict then .storeNameStrict else .storeName, some (.property k)⟩
      ⟨r, (standing c.unit chain receiver (a.pc + 1)).push x⟩ =
        .ok .proceed ⟨{ r with store := t }, (standing c.unit chain receiver (a.pc + 1)).push x⟩ := by
    cases hstrict : c.strict with
    | true =>
      rw [hstrict] at hstore
      simp only [if_true, Instruction.exec, bind, EStateM.bind, hname, hstore]
    | false =>
      rw [hstrict] at hstore
      simp only [Bool.false_eq_true, if_false, Instruction.exec, bind, EStateM.bind, hname, hstore]
  exact Machine.step_of_proceed (m := ⟨r, (standing c.unit chain receiver a.pc).push x, callers⟩) hi hexec

theorem step_pop {x : Value} {a b : Point} (h : emit c .pop a b) (r : Realm) :
    b = ⟨a.pc + 1, a.temps⟩ ∧
      Machine.step ⟨r, (standing c.unit chain receiver a.pc).push x, callers⟩ =
        .run ⟨r, standing c.unit chain receiver (a.pc + 1), callers⟩ := by
  obtain ⟨hi, hb⟩ := h
  exact ⟨hb, Machine.step_of_proceed (m := ⟨r, (standing c.unit chain receiver a.pc).push x, callers⟩) hi rfl⟩

def Store.Filled (o : LoweringOptions) (strict : Bool) (chain : Chain) (v : RecordRef) (s t : Store) (name : String)
    (f : FunctionTree) : Prop :=
  ∃ g u, t.valueOf? v name = some (.function g) ∧ s.callables.size ≤ g.index ∧ g.index < t.callables.size ∧
    t.callable g = .closure u chain ∧ Lowered o [] ⟨f, false, strict⟩ u

theorem after_function {front : Chain} (rest : Chain) {v : RecordRef} {name : String} {f : FunctionTree} {a a' a'' b : Point}
    (henv : c.env = []) (hclosure : Layout.closure c ⟨f, false, c.strict⟩ a a') (hstore : store c name a' a'')
    (hpop : emit c .pop a'' b) (r : Realm) (hv : r.store.Growing v) (hn : (r.store.valueOf? v name).isSome = true)
    (hfront : ∀ w ∈ front, w ≠ v ∧ r.store.binds w name = false) :
    b = ⟨a.pc + 3, a.temps⟩ ∧ ∃ t, r.store.Within v t ∧
      (Step.run ⟨r, standing c.unit (front ++ v :: rest) receiver a.pc, callers⟩).after 3 =
        .run ⟨{ r with store := t }, standing c.unit (front ++ v :: rest) receiver (a.pc + 3), callers⟩ ∧
      Store.Filled c.options c.strict (front ++ v :: rest) v r.store t name f ∧
      ∀ name', name' ≠ name → t.valueOf? v name' = r.store.valueOf? v name' := by
  obtain ⟨rfl, u, hl, hfirst⟩ := step_closure (front ++ v :: rest) receiver callers henv hclosure r
  obtain ⟨g, s, hadd, hs, hle, hlt, hcallable, hvalues⟩ := hv.addCallable (.closure u (front ++ v :: rest))
  rw [hadd] at hfirst
  have hbinds : s.binds v name = true := by
    rw [Store.binds_eq hs.growing.proper.slotted, hvalues]
    exact hn
  obtain ⟨t, hassign, ht, hvalue⟩ := hs.growing.assign hbinds
    (fun w hw => (hs.binds_eq (hfront w hw).1).trans (hfront w hw).2) rest (.function g)
  obtain ⟨rfl, hsecond⟩ := step_store (front ++ v :: rest) receiver callers henv hstore { r with store := s } hassign
  obtain ⟨rfl, hthird⟩ := step_pop (x := .function g) (front ++ v :: rest) receiver callers hpop { r with store := t }
  refine ⟨rfl, t, hs.trans ht, ?_, ⟨g, u, by rw [hvalue, if_pos rfl], hle, Nat.lt_of_lt_of_le hlt ht.le, ?_, hl⟩,
    fun name' hne => ?_⟩
  · rw [Step.after_run, hfirst, Step.after_run, hsecond, Step.after_run, hthird, Step.after_zero]
  · rw [ht.callables g hlt, hcallable]
  · rw [hvalue, if_neg (Ne.symm hne), hvalues]

/-- **Functions are filled in at the record that has their names.** -/
theorem after_functions {front : Chain} (rest : Chain) {v : RecordRef} (henv : c.env = []) :
    ∀ (fs : List (String × FunctionTree)) {a b : Point} (r : Realm), functionsAt c fs a b → r.store.Growing v →
      (fs.map Prod.fst).Nodup → (∀ p ∈ fs, (r.store.valueOf? v p.1).isSome = true) →
      (∀ p ∈ fs, ∀ w ∈ front, w ≠ v ∧ r.store.binds w p.1 = false) →
      b = ⟨a.pc + 3 * fs.length, a.temps⟩ ∧ ∃ t, r.store.Within v t ∧
        (Step.run ⟨r, standing c.unit (front ++ v :: rest) receiver a.pc, callers⟩).after (3 * fs.length) =
          .run ⟨{ r with store := t }, standing c.unit (front ++ v :: rest) receiver b.pc, callers⟩ ∧
        (∀ p ∈ fs, Store.Filled c.options c.strict (front ++ v :: rest) v r.store t p.1 p.2) ∧
        ∀ name, name ∉ fs.map Prod.fst → t.valueOf? v name = r.store.valueOf? v name
  | [], a, b, r, h, hv, _, _, _ => by
    cases h
    exact ⟨rfl, r.store, .refl hv, rfl, nofun, fun _ _ => rfl⟩
  | (name, f) :: fs, a, b, r, ⟨a', hclosure, _, a'', hstore, _, m, hpop, _, hrest⟩, hv, hnodup, hnames, hfront => by
    obtain ⟨rfl, s, hs, hfirst, hfilled, hkept⟩ := after_function receiver callers
      rest henv hclosure hstore hpop r hv (hnames _ List.mem_cons_self) (hfront _ List.mem_cons_self)
    obtain ⟨hnew, hnodup⟩ := List.nodup_cons.1 hnodup
    have hother : ∀ p ∈ fs, p.1 ≠ name := fun p hp heq => hnew (List.mem_map.2 ⟨p, hp, heq⟩)
    obtain ⟨rfl, t, ht, hothers, hfills, hkeeps⟩ := after_functions rest henv fs { r with store := s } hrest hs.growing hnodup
      (fun p hp => by rw [hkept _ (hother p hp)]; exact hnames p (List.mem_cons_of_mem _ hp))
      (fun p hp w hw => ⟨(hfront p (List.mem_cons_of_mem _ hp) w hw).1, by
        rw [hs.binds_eq (hfront p (List.mem_cons_of_mem _ hp) w hw).1]
        exact (hfront p (List.mem_cons_of_mem _ hp) w hw).2⟩)
    refine ⟨by simp only [List.length_cons, Point.mk.injEq, and_true]; omega, t, hs.trans ht, ?_, ?_, fun name' hn => ?_⟩
    · rw [List.length_cons, Nat.mul_succ, Nat.add_comm, Step.after_add, hfirst, hothers]
    · rintro p hp
      rcases List.mem_cons.1 hp with rfl | hp
      · obtain ⟨g, u, hvalue, hle, hlt, hcallable, hl⟩ := hfilled
        refine ⟨g, u, ?_, hle, Nat.lt_of_lt_of_le hlt ht.le, ?_, hl⟩
        · rw [hkeeps name hnew]
          exact hvalue
        · rw [ht.callables g hlt]
          exact hcallable
      · obtain ⟨g, u, hvalue, hle, hlt, hcallable, hl⟩ := hfills p hp
        exact ⟨g, u, hvalue, Nat.le_trans hs.le hle, hlt, hcallable, hl⟩
    · simp only [List.map_cons, List.mem_cons, not_or] at hn
      rw [hkeeps name' hn.2]
      exact hkept name' hn.1

end

/-! ## Code given to `eval` -/

/-- What the declarations of code given to `eval` make of a store: the functions and the other variables are in
one record, and nothing else is different. -/
structure Store.Declares (o : LoweringOptions) (strict : Bool) (ds : List Declaration) (chain : Chain) (v : RecordRef)
    (s t : Store) : Prop where
  functions : ∀ name f, lastFunction ds name = some f → Store.Filled o strict chain v s t name f
  unfilled : ∀ d ∈ ds, lastFunction ds d.id.name = none →
    t.valueOf? v d.id.name = some ((s.valueOf? v d.id.name).getD .undefined)
  others : ∀ name, (∀ d ∈ ds, d.id.name ≠ name) → t.valueOf? v name = s.valueOf? v name
  within : Store.Within v s t

open Layout in
/-- **The declarations of code given to `eval` land in the variable environment**, past objects and catch variables,
when no record in front of it binds the name of a declared function. -/
theorem eval_declarations {o : LoweringOptions} {strict : Bool} {p : Program} {code : CodeUnit}
    (hcode : compileEval o strict p = .ok code) (r : Realm) (receiver : Value) (callers : List Frame)
    (front rest : Chain) {v : RecordRef} (hv : r.store.Growing v)
    (hfront : ∀ w ∈ front, (r.store.record w).isDynamic = false)
    (hfree : ∀ w ∈ front, ∀ name f, lastFunction (declarations p.body).toList name = some f →
      r.store.binds w name = false) :
    r.store.variableScope (front ++ v :: rest) = v :: rest ∧
      ∃ (r' : Realm) (n : Nat) (t : Store),
        Realm.beginEval code (front ++ v :: rest) receiver r = .ok (.start code (front ++ v :: rest) receiver .program) r' ∧
        -- The code that fills in functions ends where the body begins.
        functionsAt ⟨code, o, [], code.strict, some 0, []⟩ (Meaning.programBody p code.strict).functions ⟨0, 1⟩ ⟨n, 1⟩ ∧
        (∃ q, bodyAt p.body ⟨code, o, [], code.strict, some 0, []⟩ ⟨n, 1⟩ q) ∧
        (Step.run ⟨r', .start code (front ++ v :: rest) receiver .program, callers⟩).after n =
          .run ⟨{ r with store := t }, standing code (front ++ v :: rest) receiver n, callers⟩ ∧
        Store.Declares o code.strict (declarations p.body).toList (front ++ v :: rest) v r.store t := by
  obtain ⟨hbindings, hstrict, -, -, -, m, hentry, -, q, hbody, -⟩ := Lowering.lowerProgram_ok (by decide) rfl hcode
  rw [← hstrict] at hentry hbody
  have hscope : r.store.variableScope (front ++ v :: rest) = v :: rest := Store.variableScope_append hfront hv.dynamic
  obtain ⟨hdeclared, hvalues⟩ := hv.declareAll code.bindings.toList true
  rw [Array.foldl_toList] at hdeclared
  simp only [Array.foldl_toList] at hvalues
  generalize hs : code.bindings.foldl (fun s name => (s.declare v name true).2) r.store = s at hdeclared hvalues
  have hbegin : Realm.beginEval code (front ++ v :: rest) receiver r =
      .ok (.start code (front ++ v :: rest) receiver .program) { r with store := s } := by
    simp only [Realm.beginEval, Realm.modifyStore, Realm.withStore, bind, EStateM.bind, hscope, Store.declareAll, hs]
    rfl
  have hmem : ∀ name, name ∈ code.bindings.toList ↔ ∃ d ∈ (declarations p.body).toList, d.id.name = name := by
    intro name
    rw [hbindings, Meaning.programTable, Array.mem_toList_iff, mem_names_entryTable]
    simp
  have hlast : ∀ name f, (name, f) ∈ (Meaning.programBody p code.strict).functions ↔
      lastFunction (declarations p.body).toList name = some f := mem_initialFunctions [] (declarations p.body)
  have hstored : ∀ p' ∈ (Meaning.programBody p code.strict).functions, (s.valueOf? v p'.1).isSome = true := by
    rintro ⟨name, f⟩ hp
    have hname : name ∈ code.bindings.toList := (hmem name).2 (exists_of_lastFunction ((hlast name f).1 hp))
    rw [hvalues, if_pos hname]
    rfl
  have hfront' : ∀ p' ∈ (Meaning.programBody p code.strict).functions, ∀ w ∈ front, w ≠ v ∧ s.binds w p'.1 = false := by
    rintro ⟨name, f⟩ hp w hw
    have hne : w ≠ v := by
      rintro rfl
      exact absurd hv.dynamic (by rw [hfront w hw]; exact Bool.false_ne_true)
    exact ⟨hne, (hdeclared.binds_eq hne).trans (hfree w hw name f ((hlast name f).1 hp))⟩
  obtain ⟨rfl, t, ht, hsteps, hfilled, hkept⟩ := after_functions receiver callers rest rfl _ { r with store := s } hentry
    hdeclared.growing (nodup_initialFunctions [] (declarations p.body)) hstored hfront'
  simp only [Nat.zero_add] at hentry hbody hsteps
  refine ⟨hscope, _, _, t, hbegin, hentry, ⟨q, hbody⟩, hsteps, ?_, ?_, ?_, hdeclared.trans ht⟩
  · intro name f hf
    obtain ⟨g, u, hvalue, hle, hrest⟩ := hfilled (name, f) ((hlast name f).2 hf)
    exact ⟨g, u, hvalue, Nat.le_trans hdeclared.le hle, hrest⟩
  · intro d hd hnone
    rw [hkept, hvalues, if_pos ((hmem _).2 ⟨d, hd, rfl⟩)]
    intro hname
    obtain ⟨⟨name, f⟩, hf, heq⟩ := List.mem_map.1 hname
    rw [← heq, (hlast name f).1 hf] at hnone
    cases hnone
  · intro name hnone
    rw [hkept, hvalues, if_neg fun h => ?_]
    · obtain ⟨d, hd, heq⟩ := (hmem name).1 h
      exact hnone d hd heq
    · intro hname
      obtain ⟨⟨name, f⟩, hf, rfl⟩ := List.mem_map.1 hname
      obtain ⟨d, hd, heq⟩ := exists_of_lastFunction ((hlast name f).1 hf)
      exact hnone d hd heq

/-- An object and a catch variable stand in front of the global record. -/
def crowded (caught : String) : Realm :=
  ⟨⟨#[Object.empty], #[], #[.dynamic ∅, .declarative #[caught] #[.null], .object ⟨0⟩]⟩, ⟨0⟩, .standard, 0, ""⟩

/-- A name that is declared as a function twice, past an object and a catch variable of another name. -/
theorem eval_declarations_crowded :
    ∃ p code t n g u, Program.parse "function f() \x7b \x7d var x; function f(a) \x7b \x7d" = .ok p ∧
      compileEval .standard false p = .ok code ∧
      (∃ r, Realm.beginEval code [⟨2⟩, ⟨1⟩, ⟨0⟩] .undefined (crowded "e") =
          .ok (.start code [⟨2⟩, ⟨1⟩, ⟨0⟩] .undefined .program) r ∧
        (Step.run ⟨r, .start code [⟨2⟩, ⟨1⟩, ⟨0⟩] .undefined .program, []⟩).after n =
          .run ⟨{ crowded "e" with store := t }, standing code [⟨2⟩, ⟨1⟩, ⟨0⟩] .undefined n, []⟩) ∧
      t.valueOf? ⟨0⟩ "f" = some (.function g) ∧ t.callable g = .closure u [⟨2⟩, ⟨1⟩, ⟨0⟩] ∧ u.params = ["a"] ∧
      t.valueOf? ⟨0⟩ "x" = some .undefined ∧ t.record ⟨1⟩ = (crowded "e").store.record ⟨1⟩ ∧
      t.objects = (crowded "e").store.objects := by
  have hcompiled : ((Program.parse "function f() \x7b \x7d var x; function f(a) \x7b \x7d").toOption.bind fun p =>
      (compileEval .standard false p).toOption.map fun _ => ((declarations p.body).toList.map fun d => d.id.name,
        (lastFunction (declarations p.body).toList "f").map fun f => f.params.map Identifier.name,
        (lastFunction (declarations p.body).toList "x").isSome)) = some (["f", "x", "f"], some ["a"], false) := by
    decide +kernel
  obtain ⟨p, hp, hcode⟩ := Option.bind_eq_some_iff.1 hcompiled
  obtain ⟨code, hcode, hdeclared⟩ := Option.map_eq_some_iff.1 hcode
  obtain ⟨hnames, hlast, hnone⟩ : _ ∧ _ ∧ _ := by simpa only [Prod.mk.injEq] using hdeclared
  obtain ⟨f, hf, hparams⟩ := Option.map_eq_some_iff.1 hlast
  have hp := eq_ok_of_toOption hp
  have hcode := eq_ok_of_toOption hcode
  have hmem : ∀ name f, lastFunction (declarations p.body).toList name = some f → name = "f" ∨ name = "x" := by
    intro name f hf
    obtain ⟨d, hd, rfl⟩ := exists_of_lastFunction hf
    have hname : d.id.name ∈ ["f", "x", "f"] := hnames ▸ List.mem_map_of_mem hd
    simp only [List.mem_cons, List.not_mem_nil, or_false] at hname
    tauto
  have hx : ∃ d ∈ (declarations p.body).toList, d.id.name = "x" :=
    List.mem_map.1 (hnames ▸ List.mem_cons_of_mem _ List.mem_cons_self)
  obtain ⟨d, hd, hdx⟩ := hx
  obtain ⟨-, r, n, t, hbegin, -, -, hsteps, hfilled, hplain, -, hwithin⟩ :=
    eval_declarations hcode (crowded "e") .undefined [] [⟨2⟩, ⟨1⟩] [] (v := ⟨0⟩)
      ⟨by decide, by decide⟩ (by decide) fun w hw name f hf => by
        rcases hmem name f hf with rfl | rfl <;> revert w <;> decide +kernel
  obtain ⟨g, u, hvalue, -, -, hcallable, hl⟩ := hfilled "f" f hf
  have hparams' : u.params = ["a"] := (congrArg CodeUnit.params hl.unit.1).trans hparams
  have hxvalue := hplain d hd (by rw [hdx]; exact Option.not_isSome_iff_eq_none.1 (by rw [hnone]; exact Bool.false_ne_true))
  rw [hdx] at hxvalue
  exact ⟨p, code, t, n, g, u, hp, hcode, ⟨r, hbegin, hsteps⟩, hvalue, hcallable, hparams', hxvalue.trans rfl,
    hwithin.records _ (by decide), hwithin.objects⟩

/-- A catch variable with the name of a declared function takes the closure in: the variable environment is left
with undefined, and the catch variable has changed. -/
theorem eval_declarations_caught :
    ((Program.parse "function f() \x7b \x7d").toOption.bind fun p =>
      (compileEval .standard false p).toOption.bind fun code =>
        match Realm.beginEval code [⟨1⟩, ⟨0⟩] .undefined (crowded "f") with
        | .ok f r =>
          match (Step.run ⟨r, f, []⟩).after 3 with
          | .run m => some ((m.realm.store.valueOf? ⟨0⟩ "f").map Value.typeOf, (m.realm.store.valueOf? ⟨1⟩ "f").map Value.typeOf)
          | .done _ => none
        | .error _ _ => none) = some (some "undefined", some "function") := by
  decide +kernel

end ScriptEngine
