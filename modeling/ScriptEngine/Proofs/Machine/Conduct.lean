/-
What an instruction does to the realm besides the values of variables and
objects: the options, the global record and the number of calls in progress
stay, closures are made only of the functions in the running code, and only an
assignment in sloppy code makes a binding (`Activity.Stays`). Where an
instruction begins a frame, the frame is that of a closure, which counts as a
call and has a record of its own, or of code given to `eval`, which declares its
variables in a record that is there (`Realm.Enters`). Where control falls
through, the instruction takes and leaves the operands that its effect says.
Main statements: `Instruction.acts_exec`, `Instruction.moves_exec`.
-/
import ScriptEngine.Proofs.Code.Shape
import ScriptEngine.Proofs.Heap.Turns
import ScriptEngine.Proofs.Simulation.Call

namespace ScriptEngine

/-! ## Realms -/

/-- Bindings of records: a record, a name, and whether the binding can be deleted. -/
abbrev Bindings := RecordRef → String → Bool → Prop

/-- The realm goes on with the same options and so many more calls in progress. Its closures were there
before, or their code is among `C`; its bindings were there before, or they are among `new`. -/
structure Realm.GoesOn (C : CodeUnit → Prop) (new : Bindings) (calls : Nat) (r r' : Realm) : Prop where
  options : r'.options = r.options
  global : r'.global = r.global
  depth : r'.depth = r.depth + calls
  closures : ∀ {i : Nat} {code : CodeUnit} {scope : Chain}, r'.store.callables[i]? = some (.closure code scope) →
    r.store.callables[i]? = some (.closure code scope) ∨ C code
  store : r.store.Turns new r'.store

def Realm.HasClosure (r : Realm) (code : CodeUnit) : Prop :=
  ∃ (i : Nat) (scope : Chain), r.store.callables[i]? = some (.closure code scope)

namespace Realm.GoesOn

variable {C : CodeUnit → Prop} {new : Bindings} {n k : Nat} {r s t : Realm}

theorem of_store {store : Store} (h : store.callables = r.store.callables) (hs : r.store.Turns new store) :
    r.GoesOn C new 0 { r with store := store } :=
  ⟨rfl, rfl, rfl, fun hi => .inl (h ▸ hi), hs⟩

theorem refl (r : Realm) : r.GoesOn C new 0 r := ⟨rfl, rfl, rfl, .inl, .refl _⟩

theorem trans (h : r.GoesOn C new n s) (h' : s.GoesOn C new k t) : r.GoesOn C new (n + k) t :=
  ⟨h'.options.trans h.options, h'.global.trans h.global, by rw [h'.depth, h.depth, Nat.add_assoc],
    fun hi => (h'.closures hi).elim h.closures .inr, h.store.trans h'.store⟩

theorem trans_zero (h : r.GoesOn C new 0 s) (h' : s.GoesOn C new n t) : r.GoesOn C new n t :=
  Nat.zero_add n ▸ h.trans h'

theorem mono {C' : CodeUnit → Prop} {new' : Bindings} (h : r.GoesOn C new n s) (hC : ∀ code, C code → C' code)
    (hn : ∀ r name d, new r name d → new' r name d) : r.GoesOn C' new' n s :=
  ⟨h.options, h.global, h.depth, fun hi => (h.closures hi).imp_right (hC _), h.store.mono hn⟩

theorem hasClosure (h : r.GoesOn C new n s) {code : CodeUnit} (hc : s.HasClosure code) : r.HasClosure code ∨ C code := by
  obtain ⟨i, scope, hi⟩ := hc
  exact (h.closures hi).imp_left fun hi => ⟨i, scope, hi⟩

end Realm.GoesOn

def CodeUnit.ownBindings (code : CodeUnit) (record : RecordRef) : Bindings := fun r name d =>
  r = record ∧ name ∈ code.bindings ∧ d = false

def CodeUnit.evalBindings (code : CodeUnit) : Bindings := fun _ name d => name ∈ code.bindings ∧ d = true

/-- A frame is begun, and the realm is another one then. -/
inductive Realm.Enters (C : CodeUnit → Prop) (new : Bindings) (r : Realm) : Frame → Realm → Prop
  | call {code : CodeUnit} {record : RecordRef} {scope : Chain} {receiver : Value} {purpose : Purpose} {r' : Realm} :
      r.HasClosure code ∨ C code → purpose ≠ .program → r.depth < r.options.maxCallDepth → ¬ r.store.Growing record →
      r.GoesOn C (fun r name d => new r name d ∨ code.ownBindings record r name d) 1 r' →
      (∀ name ∈ code.bindings, r'.store.Fixes record name) →
      Enters C new r (.start code (record :: scope) receiver purpose) r'
  | eval {p : Program} {strict : Bool} {code : CodeUnit} {scope : Chain} {receiver : Value} {r' : Realm} :
      compileEval r.options.lowering strict p = .ok code →
      r.GoesOn C (fun r name d => new r name d ∨ code.evalBindings r name d) 0 r' →
      Enters C new r (.start code scope receiver .program) r'

namespace Realm.Enters

variable {C : CodeUnit → Prop} {new : Bindings} {r s t : Realm} {f : Frame}

theorem after (h : r.GoesOn C new 0 s) (h' : s.Enters C new f t) : r.Enters C new f t := by
  cases h' with
  | call hcode hpurpose hdepth hfresh hgo hfixed =>
    refine .call ?_ hpurpose ?_ (fun hr => hfresh (h.store.growing _ hr))
      ((h.mono (fun _ => id) fun _ _ _ => .inl).trans_zero hgo) hfixed
    · exact hcode.elim h.hasClosure .inr
    · rwa [h.options, h.depth] at hdepth
  | eval hcode hgo => exact .eval (h.options ▸ hcode) ((h.mono (fun _ => id) fun _ _ _ => .inl).trans_zero hgo)

theorem mono {C' : CodeUnit → Prop} {new' : Bindings} (h : r.Enters C new f s) (hC : ∀ code, C code → C' code)
    (hn : ∀ r name d, new r name d → new' r name d) : r.Enters C' new' f s := by
  cases h with
  | call hcode hpurpose hdepth hfresh hgo hfixed =>
    exact .call (hcode.imp_right (hC _)) hpurpose hdepth hfresh (hgo.mono hC fun r name d => Or.imp_left (hn r name d)) hfixed
  | eval hcode hgo => exact .eval hcode (hgo.mono hC fun r name d => Or.imp_left (hn r name d))

end Realm.Enters

/-! ## Actions -/

/-- The result is as `Q` says, or a failure as `S` says, of the states before and after. -/
def Conducted (S : σ → σ → Prop) (Q : σ → α → σ → Prop) (s : σ) : EStateM.Result ε σ α → Prop
  | .ok a t => Q s a t
  | .error _ t => S s t

def Conducts (S : σ → σ → Prop) (Q : σ → α → σ → Prop) (x : EStateM ε σ α) : Prop := ∀ s, Conducted S Q s (x s)

/-- What is conducted so can come behind something else that is. -/
structure Conduct (S : σ → σ → Prop) (Q : σ → α → σ → Prop) : Prop where
  trans : ∀ {s t u}, S s t → S t u → S s u
  after : ∀ {s t a u}, S s t → Q t a u → Q s a u

variable {S : σ → σ → Prop} {Q : σ → β → σ → Prop}

theorem Conducted.after (hc : Conduct S Q) {s t : σ} {x : EStateM.Result ε σ β} (h : S s t) (hx : Conducted S Q t x) :
    Conducted S Q s x := by
  cases x with
  | ok b u => exact hc.after h hx
  | error e u => exact hc.trans h hx

theorem Conducts.bind (hc : Conduct S Q) {x : EStateM ε σ α} {f : α → EStateM ε σ β}
    (hx : Conducts S (fun s _ t => S s t) x) (hf : ∀ a, Conducts S Q (f a)) : Conducts S Q (x >>= f) := by
  intro s
  have hx := hx s
  simp only [Bind.bind, EStateM.bind]
  cases h : x s with
  | error e t =>
    rw [h] at hx
    exact hx
  | ok a t =>
    rw [h] at hx
    exact Conducted.after hc (t := t) hx (hf a t)

/-- The realm has no more closures, bindings and calls than before. -/
abbrev Realm.Rests (r r' : Realm) : Prop := r.GoesOn (fun _ => False) (fun _ _ _ => False) 0 r'

abbrev Realm.Begins : Realm → Frame → Realm → Prop := Realm.Enters (fun _ => False) fun _ _ _ => False

/-- A call is begun: there is a value at once, or a frame has to run. -/
def Realm.Calls (r : Realm) : Begun → Realm → Prop
  | .value _, r' => r.Rests r'
  | .frame f, r' => r.Begins f r'

theorem Realm.Calls.after {r s t : Realm} {b : Begun} (h : r.Rests s) (h' : s.Calls b t) : r.Calls b t := by
  cases b with
  | value v => exact h.trans h'
  | frame g => exact Realm.Enters.after h h'

namespace Action

abbrev Calm (x : Action α) : Prop := Conducts Realm.Rests (fun r _ r' => r.Rests r') x

abbrev Starts (x : Action Frame) : Prop := Conducts Realm.Rests Realm.Begins x

abbrev Calls (x : Action Begun) : Prop := Conducts Realm.Rests Realm.Calls x

theorem conduct_calls : Conduct Realm.Rests Realm.Calls := ⟨Realm.GoesOn.trans, Realm.Calls.after⟩

theorem Calls.bind {x : Action α} {f : α → Action Begun} (hx : Calm x) (hf : ∀ a, Calls (f a)) : Calls (x >>= f) :=
  Conducts.bind conduct_calls hx hf

theorem calls_frame {x : Action Frame} {r : Realm} (hx : Conducted Realm.Rests Realm.Begins r (x r)) :
    Conducted Realm.Rests Realm.Calls r ((x >>= fun f => pure (.frame f)) r) := by
  simp only [Bind.bind, EStateM.bind]
  cases h : x r with
  | error e r' =>
    rw [h] at hx
    exact hx
  | ok f r' =>
    rw [h] at hx
    exact hx

theorem calm_readStore (f : Store → α) : Calm (Realm.readStore f) := fun r => .refl r

theorem calm_withStore {f : Store → α × Store} (h : ∀ s : Store, s.Keeps (f s).2) (hs : ∀ s : Store, s.Settled (f s).2) :
    Calm (Realm.withStore f) :=
  fun r => .of_store (h r.store).callables (hs r.store)

theorem starts_evalText (source : String) (scope : Chain) (receiver : Value) (strict : Bool) :
    Starts (Realm.evalText source scope receiver strict) := by
  intro r
  cases hp : Program.parse source with
  | error e =>
    have hx : Realm.evalText source scope receiver strict r = .error (.fault (.source e)) r := by
      rw [Realm.evalText, hp]
      rfl
    rw [hx]
    exact .refl r
  | ok p =>
    cases hc : compileEval r.options.lowering strict p with
    | error f =>
      have hx : Realm.evalText source scope receiver strict r = .error (.fault f) r := by
        simp only [Realm.evalText, hp, bind, EStateM.bind, pure, EStateM.pure, Action.get_apply, hc]
        rfl
      rw [hx]
      exact .refl r
    | ok code =>
      have hx : Realm.evalText source scope receiver strict r = Realm.beginEval code scope receiver r := by
        simp only [Realm.evalText, hp, bind, EStateM.bind, pure, EStateM.pure, Action.get_apply, hc]
      rw [hx]
      refine .eval hc (.of_store ?_ ?_) <;> dsimp only <;> split
      · exact (Store.keeps_declareAll _ _ _ _).callables
      · rfl
      · refine (Store.turns_declareAll _ _ _ _).mono ?_
        rintro r' name d ⟨-, hname, hd⟩
        exact .inr ⟨hname, hd⟩
      · exact .refl _

theorem starts_evalGlobal (source : String) : Starts (Realm.evalGlobal source) :=
  fun r => starts_evalText source [r.global] .undefined false r

theorem calls_callBuiltin (b : Builtin) (args : List Value) : Calls (Realm.callBuiltin b args) := by
  cases b with
  | eval =>
    simp only [Realm.callBuiltin]
    split
    · exact fun r => calls_frame (starts_evalGlobal _ r)
    · exact fun r => .refl r
    · exact fun r => .refl r
  | print => exact .bind (fun r => ⟨rfl, rfl, rfl, .inl, .refl _⟩) fun _ r => .refl r
  | makeError kind =>
    exact .bind (calm_readStore _) fun message => .bind (x := modifyGet (Realm.errorObject kind message))
      (fun r => .of_store (Store.keeps_addObject _ _).callables (Store.settled_addObject _ _)) fun _ r => .refl r

theorem turns_callRecord (code : CodeUnit) (args : List Value) (s : Store) :
    ¬ s.Growing (Realm.callRecord code args s).1 ∧ s.Turns (code.ownBindings (Realm.callRecord code args s).1) (Realm.callRecord code args s).2 ∧
      ∀ name ∈ code.bindings, (Realm.callRecord code args s).2.Fixes (Realm.callRecord code args s).1 name := by
  have hparams : ∀ (s : Store) (record : RecordRef), s.Settled ((code.params.zip args).foldl
      (fun (s : Store) (p : String × Value) => (s.setVariable record p.1 p.2).2) s) := fun s record =>
    Store.settled_foldl (fun s (p : String × Value) => s.settled_setVariable record p.1 p.2) _ s
  have hfresh : ∀ record, ¬ s.Growing (s.addRecord record).1 := fun record h => absurd h.lt (Nat.lt_irrefl _)
  cases hstorage : code.storage with
  | static =>
    have hrecord : (Realm.callRecord code args s).1 = (s.addRecord (.slots code.bindings)).1 := by
      simp only [Realm.callRecord, hstorage]
    have hstore : (s.addRecord (.slots code.bindings)).2.Settled (Realm.callRecord code args s).2 := by
      simp only [Realm.callRecord, hstorage]
      exact hparams _ _
    rw [hrecord]
    refine ⟨hfresh _, ((s.settled_addSlots code.bindings).trans hstore).mono fun _ _ _ => False.elim, fun name hname => ?_⟩
    exact hstore.fixes (.inl ⟨code.bindings, _, s.record_addRecord (.slots code.bindings), hname⟩)
  | dynamic =>
    have hrecord : (Realm.callRecord code args s).1 = (s.addRecord (.dynamic ∅)).1 := by
      simp only [Realm.callRecord, hstorage]
    have hstore : ((s.addRecord (.dynamic ∅)).2.declareAll (s.addRecord (.dynamic ∅)).1 code.bindings false).Settled
        (Realm.callRecord code args s).2 := by
      simp only [Realm.callRecord, hstorage]
      exact hparams _ _
    have hadded : s.Settled (s.addRecord (.dynamic ∅)).2 := s.settled_addRecord fun _ h => (Record.dynamic.inj h).symm
    have hdeclared := Store.turns_declareAll (s.addRecord (.dynamic ∅)).2 (s.addRecord (.dynamic ∅)).1 code.bindings false
    rw [hrecord]
    refine ⟨hfresh _, ((hadded.mono fun _ _ _ => False.elim).trans hdeclared).trans (hstore.mono fun _ _ _ => False.elim),
      fun name hname => hstore.fixes (Store.fixes_declareAll code.bindings ⟨?_, ?_⟩ (fun name hb => ?_) hname)⟩
    · simp [Store.addRecord]
    · rw [s.record_addRecord]
      rfl
    · obtain ⟨bindings, b, hr, hb, -⟩ := hb
      rw [s.record_addRecord] at hr
      cases hr
      simp at hb

theorem starts_callClosure {code : CodeUnit} {r : Realm} (hc : r.HasClosure code) (scope : Chain) (receiver : Value)
    (args : List Value) {purpose : Purpose} (hp : purpose ≠ .program) :
    Conducted Realm.Rests Realm.Begins r (Realm.callClosure code scope receiver args purpose r) := by
  simp only [Realm.callClosure, Bind.bind, EStateM.bind, Action.get_apply]
  by_cases hd : r.depth ≥ r.options.maxCallDepth
  · rw [if_pos hd]
    exact .refl r
  · rw [if_neg hd]
    obtain ⟨hfresh, hturns, hfixes⟩ := turns_callRecord code args r.store
    refine .call (.inl hc) hp (Nat.lt_of_not_le hd) hfresh
      ⟨rfl, rfl, rfl, fun hi => .inl ?_, hturns.mono fun _ _ _ => .inr⟩ hfixes
    rwa [← (callRecord_keeps code args r.store).1.callables]

theorem calls_call (callee receiver : Value) (args : List Value) (description : String) :
    Calls (Realm.call callee receiver args description) := by
  cases callee with
  | function f =>
    intro r
    simp only [Realm.call, Bind.bind, EStateM.bind, Realm.readStore]
    cases hf : r.store.callable f with
    | builtin b => exact calls_callBuiltin b args r
    | closure code scope =>
      exact calls_frame (starts_callClosure ⟨_, _, Store.callables_of_closure hf⟩ scope receiver args
        (by simp : Purpose.call ≠ .program))
  | _ => exact fun r => .refl r

theorem calls_construct (target : Value) (args : List Value) : Calls (Realm.construct target args) := by
  intro r
  simp only [Realm.construct, Bind.bind, EStateM.bind, Realm.readStore]
  cases hc : Realm.constructor? r.store target with
  | none => exact .refl r
  | some p =>
    obtain ⟨f, callable⟩ := p
    cases callable with
    | builtin b =>
      have hb := calls_callBuiltin b args r
      cases h : Realm.callBuiltin b args r with
      | error e r' =>
        rw [h] at hb
        simpa only [EStateM.bind, h] using hb
      | ok begun r' =>
        rw [h] at hb
        simp only [EStateM.bind, h]
        cases begun with
        | frame g => exact hb
        | value v =>
          cases v with
          | object made => exact Realm.GoesOn.trans (k := 0) hb (.of_store rfl (Store.settled_modifyObject _ _ _))
          | _ => exact hb
    | closure code scope =>
      have hcode := Store.callables_of_closure (callable_of_constructor? hc).1
      have hmade := starts_callClosure (r := { r with store := (r.store.addObject (Object.empty.madeWith f)).2 })
        ⟨_, _, hcode⟩ scope (.object ⟨r.store.objects.size⟩) args
        (by simp : Purpose.construct ⟨r.store.objects.size⟩ ≠ .program)
      have hrest : r.Rests { r with store := (r.store.addObject (Object.empty.madeWith f)).2 } :=
        .of_store rfl (Store.settled_addObject _ _)
      exact .after conduct_calls hrest (calls_frame hmade)

end Action

/-! ## Frames -/

/-- The frame stands in the same place with the same scopes and regions open. -/
structure Frame.Beside (f f' : Frame) : Prop where
  code : f'.code = f.code
  position : f'.position = f.position
  scope : f'.scope = f.scope
  handlers : f'.handlers = f.handlers

namespace Frame.Beside

theorem refl (f : Frame) : f.Beside f := ⟨rfl, rfl, rfl, rfl⟩

theorem trans {f g h : Frame} (hfg : f.Beside g) (hgh : g.Beside h) : f.Beside h :=
  ⟨hgh.code.trans hfg.code, hgh.position.trans hfg.position, hgh.scope.trans hfg.scope,
    hgh.handlers.trans hfg.handlers⟩

end Frame.Beside

/-- The operands that are still to come: a frame that is entered first leaves its value. -/
def Next.owed : Next → Nat
  | .enter _ => 1
  | .proceed | .leave _ => 0

/-- One stack comes from another by taking `n` operands and leaving `m`, some of which are still owed; what lies
below them is the same. -/
structure Trades (n m owed : Nat) (s t : List Value) : Prop where
  length : t.length + owed + n = s.length + m
  below : t.drop (m - owed) = s.drop n

namespace Trades

variable {n m k owed : Nat} {s t u : List Value}

theorem refl (s : List Value) : Trades n n 0 s s := ⟨rfl, rfl⟩

theorem trans (h : Trades n m 0 s t) (h' : Trades m k owed t u) : Trades n k owed s u := by
  have hfirst : t.length + n = s.length + m := h.length
  have hsecond := h'.length
  exact ⟨by omega, h'.below.trans h.below⟩

theorem push (v : Value) (s : List Value) : Trades n (n + 1) 0 s (v :: s) := ⟨by rw [List.length_cons]; omega, rfl⟩

theorem pop (v : Value) (s : List Value) : Trades (n + 1) n 0 (v :: s) s := ⟨by rw [List.length_cons]; omega, rfl⟩

theorem drop {c : Nat} (h : c ≤ s.length) : Trades (c + n) n 0 s (s.drop c) :=
  ⟨by rw [List.length_drop]; omega, List.drop_drop⟩

theorem owes (s : List Value) : Trades n (n + 1) 1 s s := ⟨by omega, rfl⟩

end Trades

namespace Exec

/-- The activity takes `n` operands and leaves `m`, some of which may be owed. When it fails, the
open regions are the same. -/
def Moves (owed : α → Nat) (n m : Nat) (x : Exec α) : Prop := ∀ a : Activity,
  match x a with
  | .ok r a' => a.frame.Beside a'.frame ∧ Trades n m (owed r) a.frame.stack a'.frame.stack
  | .error _ a' => a'.frame.code = a.frame.code ∧ a'.frame.handlers = a.frame.handlers

abbrev Shifts (n m : Nat) (x : Exec α) : Prop := Moves (fun _ => 0) n m x

namespace Moves

variable {α β : Type} {owed : β → Nat} {n m k : Nat}

theorem bind {x : Exec α} {f : α → Exec β} (hx : Shifts n m x) (hf : ∀ r, Moves owed m k (f r)) :
    Moves owed n k (x >>= f) := by
  intro a
  have hx := hx a
  simp only [Bind.bind, EStateM.bind]
  revert hx
  cases x a with
  | error e a' => exact id
  | ok r a' =>
    rintro ⟨hbeside, htrades⟩
    have hf := hf r a'
    dsimp only
    revert hf
    cases f r a' with
    | error e a'' => exact fun hf => ⟨hf.1.trans hbeside.code, hf.2.trans hbeside.handlers⟩
    | ok r' a'' => exact fun hf => ⟨hbeside.trans hf.1, htrades.trans hf.2⟩

theorem pure {r : β} (h : owed r = 0) : Moves owed n n (Pure.pure r) := fun _ => ⟨.refl _, h ▸ .refl _⟩

theorem proceed : Moves Next.owed n n (Pure.pure .proceed) := pure rfl

theorem raise (f : Fault) : Moves owed n m (Exec.raise f) := fun _ => ⟨rfl, rfl⟩

end Moves

end Exec

/-! ## Instructions -/

/-- The instruction makes closures of this function of the unit. -/
def Instruction.Makes (i : Instruction) (u code : CodeUnit) : Prop :=
  ∃ k, i = ⟨.closure, some (.function k)⟩ ∧ u.functions[k]? = some code

/-- The instruction assigns to the name in sloppy code, and binds it when it is bound nowhere. -/
def Instruction.Binds (i : Instruction) (u : CodeUnit) : Bindings := fun _ name d =>
  d = true ∧ ∃ k, i = ⟨.storeName, some (.property k)⟩ ∧ u.constants[k]? = some (.string name)

/-- The running code is the same; closures are made of the functions `C` of it only, and new bindings
are among those that `new` has for it. -/
structure Activity.Stays (C : CodeUnit → CodeUnit → Prop) (new : CodeUnit → Bindings) (a a' : Activity) : Prop where
  code : a'.frame.code = a.frame.code
  purpose : a'.frame.purpose = a.frame.purpose
  realm : a.realm.GoesOn (C a.frame.code) (new a.frame.code) 0 a'.realm

section

variable {C : CodeUnit → CodeUnit → Prop} {new : CodeUnit → Bindings}

theorem Activity.Stays.refl (a : Activity) : a.Stays C new a := ⟨rfl, rfl, .refl _⟩

theorem Activity.Stays.trans {a b c : Activity} (h : a.Stays C new b) (h' : b.Stays C new c) : a.Stays C new c :=
  ⟨h'.code.trans h.code, h'.purpose.trans h.purpose, h.realm.trans (h.code ▸ h'.realm)⟩

/-- The instruction goes on in the frame or begins another one. -/
def Activity.Goes (C : CodeUnit → CodeUnit → Prop) (new : CodeUnit → Bindings) (a : Activity) : Next → Activity → Prop
  | .proceed, a' | .leave _, a' => a.Stays C new a'
  | .enter f, a' => a'.frame.code = a.frame.code ∧ a'.frame.purpose = a.frame.purpose ∧
      a.realm.Enters (C a.frame.code) (new a.frame.code) f a'.realm

theorem Activity.Goes.after {a b c : Activity} {next : Next} (h : a.Stays C new b) (h' : b.Goes C new next c) :
    a.Goes C new next c := by
  cases next with
  | proceed => exact h.trans h'
  | leave v => exact h.trans h'
  | enter f => exact ⟨h'.1.trans h.code, h'.2.1.trans h.purpose, .after h.realm (h.code ▸ h'.2.2)⟩

end

abbrev Activity.Rests : Activity → Activity → Prop := Activity.Stays (fun _ _ => False) fun _ _ _ _ => False

theorem Activity.Rests.stays {a a' : Activity} (h : a.Rests a') (C : CodeUnit → CodeUnit → Prop) (new : CodeUnit → Bindings) :
    a.Stays C new a' := ⟨h.code, h.purpose, h.realm.mono (fun _ => False.elim) fun _ _ _ => False.elim⟩

namespace Exec

variable {i : Instruction}

abbrev Calm (x : Exec α) : Prop := Conducts Activity.Rests (fun a _ a' => a.Rests a') x

/-- The activity does what the instruction may do: it stays in the frame or begins another one. -/
abbrev Acts (i : Instruction) (x : Exec Next) : Prop :=
  Conducts (Activity.Stays i.Makes i.Binds) (Activity.Goes i.Makes i.Binds) x

theorem Calm.bind {x : Exec α} {f : α → Exec β} (hx : Calm x) (hf : ∀ a, Calm (f a)) : Calm (x >>= f) := by
  have hc : Conduct Activity.Rests fun a (_ : β) a' => a.Rests a' := ⟨Activity.Stays.trans, Activity.Stays.trans⟩
  exact Conducts.bind hc hx hf

theorem conduct_acts (i : Instruction) : Conduct (Activity.Stays i.Makes i.Binds) (Activity.Goes i.Makes i.Binds) :=
  ⟨Activity.Stays.trans, Activity.Goes.after⟩

theorem Acts.bind {x : Exec α} {f : α → Exec Next} (hx : Calm x) (hf : ∀ a, Acts i (f a)) : Acts i (x >>= f) := by
  refine Conducts.bind (conduct_acts i) (fun a => ?_) hf
  have hx := hx a
  cases h : x a with
  | ok v b =>
    rw [h] at hx
    exact hx.stays _ _
  | error e b =>
    rw [h] at hx
    exact hx.stays _ _

theorem acts_proceed : Acts i (pure .proceed) := .refl

theorem acts_raise (f : Fault) : Acts i (raise f) := .refl

theorem calm_modifyFrame {f : Frame → Frame} (h : ∀ g : Frame, (f g).code = g.code ∧ (f g).purpose = g.purpose) :
    Calm (modifyFrame f) := fun a => ⟨(h a.frame).1, (h a.frame).2, .refl _⟩

theorem calm_inRealm {x : Action α} (hx : Action.Calm x) : Calm (inRealm x) := by
  rintro ⟨r, f⟩
  have hx := hx r
  simp only [inRealm]
  cases h : x r with
  | ok a r' =>
    rw [h] at hx
    exact ⟨rfl, rfl, hx.mono (fun _ => False.elim) fun _ _ _ => False.elim⟩
  | error e r' =>
    rw [h] at hx
    exact ⟨rfl, rfl, hx.mono (fun _ => False.elim) fun _ _ _ => False.elim⟩

theorem calm_jumpTo (t : Nat) : Calm (jumpTo t) := calm_modifyFrame fun _ => ⟨rfl, rfl⟩

theorem calm_targetOperand (i : Instruction) : Calm (targetOperand i) := by
  unfold targetOperand
  split
  · exact .refl
  · exact .refl

/-- The activity stays in the frame, takes `n` operands and leaves `m`. -/
structure Quiet (n m : Nat) (x : Exec α) : Prop where
  calm : Calm x
  shifts : Shifts n m x

/-- The activity does what the instruction may do, takes `n` operands and leaves `m`. -/
structure Works (i : Instruction) (n m : Nat) (x : Exec Next) : Prop where
  acts : Acts i x
  moves : Moves Next.owed n m x

variable {n m k : Nat}

theorem Quiet.bind {x : Exec α} {f : α → Exec β} (hx : Quiet n m x) (hf : ∀ a, Quiet m k (f a)) : Quiet n k (x >>= f) :=
  ⟨hx.calm.bind fun a => (hf a).calm, hx.shifts.bind fun a => (hf a).shifts⟩

theorem Works.bind {x : Exec α} {f : α → Exec Next} (hx : Quiet n m x) (hf : ∀ a, Works i m k (f a)) :
    Works i n k (x >>= f) :=
  ⟨.bind hx.calm fun a => (hf a).acts, hx.shifts.bind fun a => (hf a).moves⟩

theorem quiet_pure (r : α) : Quiet n n (pure r) := ⟨.refl, .pure rfl⟩

theorem quiet_raise (f : Fault) : Quiet n m (raise f : Exec α) := ⟨.refl, .raise f⟩

theorem works_proceed : Works i n n (pure .proceed) := ⟨acts_proceed, .pure rfl⟩

theorem works_raise (f : Fault) : Works i n m (raise f) := ⟨acts_raise f, .raise f⟩

theorem quiet_readFrame (f : Frame → α) : Quiet n n (readFrame f) := ⟨.refl, fun _ => ⟨.refl _, .refl _⟩⟩

theorem quiet_readStore (f : Store → α) : Quiet n n (readStore f) := ⟨.refl, fun _ => ⟨.refl _, .refl _⟩⟩

theorem shifts_inRealm (x : Action α) : Shifts n n (inRealm x) := by
  rintro ⟨realm, frame⟩
  simp only [inRealm]
  cases x realm with
  | ok r realm' => exact ⟨.refl _, .refl _⟩
  | error e realm' => exact ⟨rfl, rfl⟩

theorem quiet_withStore {f : Store → α × Store} (h : ∀ s : Store, s.Keeps (f s).2) (hs : ∀ s : Store, s.Settled (f s).2) :
    Quiet n n (withStore f) := ⟨calm_inRealm (Action.calm_withStore h hs), shifts_inRealm _⟩

theorem quiet_modifyFrame {f : Frame → Frame} (h : ∀ g : Frame, (f g).purpose = g.purpose ∧ g.Beside (f g) ∧
    Trades n m 0 g.stack (f g).stack) : Quiet n m (modifyFrame f) :=
  ⟨calm_modifyFrame fun g => ⟨(h g).2.1.code, (h g).1⟩, fun a => (h a.frame).2⟩

theorem quiet_takeOff {f : Frame → Option α × Frame} (h : ∀ g : Frame, (f g).2.purpose = g.purpose ∧ g.Beside (f g).2 ∧
    ((f g).1.isSome = true → Trades n m 0 g.stack (f g).2.stack)) : Quiet n m (takeOff f) := by
  refine ⟨?_, ?_⟩ <;> rintro ⟨r, g⟩ <;> have h := h g <;> revert h <;> simp only [takeOff] <;>
    obtain ⟨x, g'⟩ := f g <;> cases x
  · exact fun h => ⟨h.2.1.code, h.1, .refl _⟩
  · exact fun h => ⟨h.2.1.code, h.1, .refl _⟩
  · exact fun h => ⟨h.2.1.code, h.2.1.handlers⟩
  · exact fun h => ⟨h.2.1, h.2.2 rfl⟩

theorem quiet_push (v : Value) : Quiet n (n + 1) (push v) :=
  quiet_modifyFrame fun g => ⟨rfl, ⟨rfl, rfl, rfl, rfl⟩, .push v g.stack⟩

theorem quiet_pop : Quiet (n + 1) n pop := by
  refine quiet_takeOff fun g => ⟨rfl, ⟨rfl, rfl, rfl, rfl⟩, fun h => ?_⟩
  simp only [Frame.pop] at h ⊢
  cases hs : g.stack with
  | nil => simp [hs] at h
  | cons v rest => exact .pop v rest

theorem quiet_peek : Quiet n n peek := quiet_takeOff fun _ => ⟨rfl, .refl _, fun _ => .refl _⟩

theorem quiet_pop2 : Quiet (n + 2) n pop2 := .bind quiet_pop fun _ => .bind quiet_pop fun _ => quiet_pure _

theorem quiet_popMany (c : Nat) : Quiet (c + n) n (popMany c) := by
  refine quiet_takeOff fun g => ?_
  unfold Frame.popMany
  split
  · exact ⟨rfl, ⟨rfl, rfl, rfl, rfl⟩, fun _ => .drop ‹_›⟩
  · exact ⟨rfl, .refl _, fun h => by cases h⟩

theorem works_push (v : Value) : Works i n (n + 1) (push v >>= fun _ => pure .proceed) :=
  .bind (quiet_push v) fun _ => works_proceed

theorem works_pushBoolean (b : Bool) : Works i n (n + 1) (pushBoolean b) := works_push _

/-! ### Operands -/

theorem quiet_constantOperand (i : Instruction) : Quiet n n (constantOperand i) := by
  unfold constantOperand
  split
  · exact quiet_pure _
  · exact quiet_raise _

theorem quiet_temporaryOperand (i : Instruction) : Quiet n n (temporaryOperand i) := by
  unfold temporaryOperand
  split
  · exact quiet_pure _
  · exact quiet_raise _

theorem quiet_countOperand (i : Instruction) : Quiet n n (countOperand i) := by
  unfold countOperand
  split
  · exact quiet_pure _
  · exact quiet_raise _

theorem quiet_slotOperand (i : Instruction) : Quiet n n (slotOperand i) := by
  unfold slotOperand
  split
  · exact quiet_pure _
  · exact quiet_raise _

theorem quiet_nameAt (op : Opcode) (index : Nat) : Quiet n n (nameAt op index) := by
  refine .bind (quiet_readFrame _) fun r => ?_
  split
  · exact quiet_pure _
  · exact quiet_raise _

theorem quiet_nameOperand (i : Instruction) : Quiet n n (nameOperand i) := by
  unfold nameOperand
  split
  · exact quiet_nameAt _ _
  · exact quiet_raise _

theorem nameOperand_eq_ok {a b : Activity} {name : String} (h : nameOperand i a = .ok name b) :
    b = a ∧ ∃ k, i.operand = some (.property k) ∧ a.frame.code.constants[k]? = some (.string name) := by
  obtain ⟨op, operand⟩ := i
  cases operand with
  | none => cases h
  | some operand =>
    cases operand with
    | property k =>
      simp only [nameOperand, nameAt, Bind.bind, EStateM.bind, readFrame] at h
      cases hk : a.frame.code.constants[k]? with
      | none => rw [hk] at h; cases h
      | some constant =>
        rw [hk] at h
        cases constant with
        | string name' =>
          cases h
          exact ⟨rfl, k, rfl, hk⟩
        | _ => cases h
    | _ => cases h

/-! ### Operators, variables and properties -/

theorem works_operate (f : Store → Value → Value → Value) : Works i 2 1 (operate f) :=
  .bind quiet_pop2 fun _ => .bind (quiet_readStore _) fun _ => works_push _

theorem works_transform (f : Store → Value → Value) : Works i 1 1 (transform f) :=
  .bind quiet_pop fun _ => .bind (quiet_readStore _) fun _ => works_push _

theorem works_loadSlot (depth index : Nat) : Works i 0 1 (loadSlot depth index) := by
  refine .bind (quiet_readFrame _) fun record => .bind (quiet_readStore _) fun r => ?_
  split
  · exact works_push _
  · exact works_raise _

theorem works_storeSlot (depth index : Nat) : Works i 1 1 (storeSlot depth index) := by
  refine .bind quiet_peek fun v => .bind (quiet_readFrame _) fun record => ?_
  split
  · refine .bind (quiet_withStore (fun s => s.keeps_setSlot _ _ _) fun s => s.settled_setSlot _ _ _) fun stored => ?_
    split
    · exact works_proceed
    · exact works_raise _
  · exact works_raise _

theorem quiet_lookup (name : String) : Quiet n n (lookup name) := .bind (quiet_readFrame _) fun _ => quiet_readStore _

theorem works_loadName (name : String) : Works i 0 1 (loadName name) := by
  refine .bind (quiet_lookup name) fun r => ?_
  split
  · exact works_push _
  · exact works_raise _

theorem works_loadNameOrUndefined (name : String) : Works i 0 1 (loadNameOrUndefined name) := by
  refine .bind (quiet_lookup name) fun r => ?_
  split <;> exact works_push _

theorem works_loadNameWithReceiver (name : String) : Works i 0 2 (loadNameWithReceiver name) := by
  refine .bind (quiet_lookup name) fun r => ?_
  split
  · exact .bind (quiet_push _) fun _ => works_push _
  · exact works_raise _

theorem acts_storeName {a : Activity} {name : String} {strict : Bool}
    (hi : strict = false → ∀ r, i.Binds a.frame.code r name true) :
    Conducted (Activity.Stays i.Makes i.Binds) (Activity.Goes i.Makes i.Binds) a (storeName name strict a) := by
  have hpeek := (quiet_peek (n := 0)).calm a
  simp only [storeName, Bind.bind, EStateM.bind]
  cases hv : peek a with
  | error e b =>
    rw [hv] at hpeek
    exact hpeek.stays _ _
  | ok v b =>
    rw [hv] at hpeek
    refine Conducted.after (conduct_acts i) (hpeek.stays _ _) ?_
    rw [← hpeek.code] at hi
    obtain ⟨r, f⟩ := b
    have hassigned : Activity.Rests ⟨r, f⟩ ⟨{ r with store := (r.store.assign f.scope name v).2 }, f⟩ :=
      ⟨rfl, rfl, .of_store (r.store.keeps_assign f.scope name v).callables (r.store.settled_assign f.scope name v)⟩
    refine Conducted.after (conduct_acts i) (hassigned.stays _ _) ?_
    simp only [readFrame, withStore, inRealm, Realm.withStore]
    cases (r.store.assign f.scope name v).1 with
    | true => exact .refl _
    | false =>
      cases strict with
      | true => exact .refl _
      | false =>
        refine ⟨rfl, rfl, .of_store (Store.keeps_assignGlobal _ _ _ _).callables ?_⟩
        refine (Store.turns_assignGlobal _ _ _ _).mono ?_
        rintro r' name' d ⟨rfl, rfl⟩
        exact hi rfl r'

theorem moves_storeName (name : String) (strict : Bool) : Moves Next.owed 1 1 (storeName name strict) := by
  refine quiet_peek.shifts.bind fun v => (quiet_readFrame _).shifts.bind fun scope =>
    (shifts_inRealm _).bind fun stored => ?_
  split
  · exact .proceed
  · split
    · exact .raise _
    · exact (shifts_inRealm _).bind fun _ => .proceed

theorem works_deleteName (name : String) : Works i 0 1 (deleteName name) :=
  .bind (quiet_readFrame _) fun scope =>
    .bind (quiet_withStore (fun s => s.keeps_deleteBinding name scope) (Store.settled_deleteBinding name scope)) fun _ =>
      works_pushBoolean _

theorem works_getProperty : Works i 2 1 getProperty := by
  refine .bind quiet_pop2 fun (base, key) => .bind (quiet_readStore _) fun key => ?_
  split
  · exact .bind (quiet_readStore _) fun _ => works_raise _
  · exact .bind (quiet_readStore _) fun _ => works_push _

theorem works_setProperty : Works i 3 1 setProperty := by
  refine .bind quiet_pop fun v => .bind quiet_pop2 fun (base, key) => .bind (quiet_readStore _) fun key => ?_
  split
  · exact .bind (quiet_withStore (fun s => s.keeps_setProperty _ _ _) fun s => s.settled_setProperty _ _ _) fun _ =>
      works_push v
  · exact .bind (quiet_readStore _) fun _ => .bind (quiet_raise _) fun _ => works_push v
  · exact .bind (quiet_readStore _) fun _ => .bind (quiet_raise _) fun _ => works_push v
  · exact works_push v

theorem works_deleteProperty : Works i 2 1 deleteProperty := by
  refine .bind quiet_pop2 fun (base, key) => .bind (quiet_readStore _) fun key => ?_
  split
  · exact .bind (quiet_withStore (fun s => s.keeps_deleteProperty _ _) fun s => s.settled_deleteProperty _ _) fun _ =>
      works_pushBoolean _
  · exact .bind (quiet_readStore _) fun _ => works_raise _
  · exact .bind (quiet_readStore _) fun _ => works_raise _
  · exact works_pushBoolean _

theorem works_defineProperty (key : String) : Works i 2 1 (defineProperty key) := by
  refine .bind quiet_pop fun v => .bind quiet_peek fun base => ?_
  split
  · exact .bind (quiet_withStore (fun s => s.keeps_setProperty _ _ _) fun s => s.settled_setProperty _ _ _) fun _ =>
      works_proceed
  · exact works_proceed

theorem works_newObject (o : Object) : Works i 0 1 (newObject o) :=
  .bind (quiet_withStore (fun s => s.keeps_addObject o) fun s => s.settled_addObject o) fun _ => works_push _

theorem works_isInstance : Works i 2 1 isInstance := by
  refine .bind quiet_pop2 fun (v, maker) => ?_
  dsimp only
  split
  · split
    · exact .bind (quiet_readStore _) fun _ => works_pushBoolean _
    · exact works_pushBoolean _
  · exact works_raise _

theorem works_hasProperty : Works i 2 1 hasProperty := by
  refine .bind quiet_pop2 fun (key, base) => .bind (quiet_readStore _) fun key => ?_
  split
  · exact .bind (quiet_readStore _) fun _ => works_pushBoolean _
  · exact .bind (quiet_readStore _) fun _ => works_raise _

/-! ### Control -/

theorem acts_jumpWhen (truth : Bool) (t : Nat) : Acts i (jumpWhen truth t) := by
  refine .bind (quiet_pop (n := 0)).calm fun v => ?_
  split
  · exact .bind (calm_jumpTo t) fun _ => acts_proceed
  · exact acts_proceed

theorem acts_shortCircuit (truth : Bool) (t : Nat) : Acts i (shortCircuit truth t) := by
  refine .bind (quiet_peek (n := 0)).calm fun v => ?_
  split
  · exact .bind (calm_jumpTo t) fun _ => acts_proceed
  · exact .bind (quiet_pop (n := 0)).calm fun _ => acts_proceed

theorem works_begun {x : Action Begun} (hx : Action.Calls x) : Works i n (n + 1) (inRealm x >>= continueWith) := by
  refine ⟨?_, (shifts_inRealm x).bind fun b => ?_⟩
  · rintro ⟨r, f⟩
    have hx := hx r
    simp only [Bind.bind, EStateM.bind, inRealm]
    cases h : x r with
    | error e r' =>
      rw [h] at hx
      exact ⟨rfl, rfl, hx.mono (fun _ => False.elim) fun _ _ _ => False.elim⟩
    | ok b r' =>
      rw [h] at hx
      cases b with
      | value v => exact ⟨rfl, rfl, Realm.GoesOn.mono hx (fun _ => False.elim) fun _ _ _ => False.elim⟩
      | frame g => exact ⟨rfl, rfl, Realm.Enters.mono hx (fun _ => False.elim) fun _ _ _ => False.elim⟩
  · cases b with
    | value v => exact (quiet_push v).shifts.bind fun _ => .proceed
    | frame f => exact fun a => ⟨.refl _, .owes _⟩

theorem works_enter {x : Action Frame} (hx : Action.Starts x) :
    Works i n (n + 1) (inRealm x >>= fun f => pure (.enter f)) := by
  refine ⟨?_, (shifts_inRealm x).bind fun f a => ⟨.refl _, .owes _⟩⟩
  rintro ⟨r, f⟩
  have hx := hx r
  simp only [Bind.bind, EStateM.bind, inRealm]
  cases h : x r with
  | error e r' =>
    rw [h] at hx
    exact ⟨rfl, rfl, hx.mono (fun _ => False.elim) fun _ _ _ => False.elim⟩
  | ok g r' =>
    rw [h] at hx
    exact ⟨rfl, rfl, Realm.Enters.mono hx (fun _ => False.elim) fun _ _ _ => False.elim⟩

theorem works_call (op : Opcode) (count description : Nat) : Works i (count + 2) 1 (call op count description) := by
  refine .bind (quiet_popMany count) fun args => .bind quiet_pop2 fun (callee, receiver) => ?_
  refine .bind (quiet_readStore _) fun isEval => ?_
  split
  · split
    · exact .bind (quiet_readFrame _) fun frame => works_enter (Action.starts_evalText _ _ _ _)
    · exact works_push _
    · exact works_push _
  · exact .bind (quiet_nameAt _ _) fun _ => works_begun (Action.calls_call _ _ _ _)

theorem works_construct (count : Nat) : Works i (count + 1) 1 (construct count) :=
  .bind (quiet_popMany count) fun _ => .bind quiet_pop fun _ => works_begun (Action.calls_construct _ _)

theorem acts_closure {a : Activity} {code : CodeUnit} (hcode : i.Makes a.frame.code code) :
    Conducted (Activity.Stays i.Makes i.Binds) (Activity.Goes i.Makes i.Binds) a (closure code a) := by
  obtain ⟨r, f⟩ := a
  have hadd : ∀ {s : Store} {scope : Chain}, s.callables = r.store.callables → ∀ {k : Nat} {c : CodeUnit} {sc : Chain},
      (s.callables.push (.closure code scope))[k]? = some (.closure c sc) →
        r.store.callables[k]? = some (.closure c sc) ∨ i.Makes f.code c := by
    intro s scope hs k c sc hk
    rw [hs, Array.getElem?_push] at hk
    split at hk
    · cases hk
      exact .inr hcode
    · exact .inl hk
  unfold closure
  simp only [Bind.bind, EStateM.bind, readFrame]
  split
  · refine ⟨rfl, rfl, rfl, rfl, rfl, hadd rfl, .mono ?_ fun _ _ _ => False.elim⟩
    exact ((r.store.settled_addSlots _).trans (Store.settled_addCallable _ _)).trans
      (Store.settled_setSlot _ _ _ _)
  · exact ⟨rfl, rfl, rfl, rfl, rfl, hadd rfl, (r.store.settled_addCallable _).mono fun _ _ _ => False.elim⟩

theorem moves_closure (code : CodeUnit) : Moves Next.owed 0 1 (closure code) := by
  refine (quiet_readFrame _).shifts.bind fun scope => ?_
  split
  · exact (shifts_inRealm _).bind fun _ => (shifts_inRealm _).bind fun _ => (shifts_inRealm _).bind fun _ =>
      (quiet_push _).shifts.bind fun _ => .proceed
  · exact (shifts_inRealm _).bind fun _ => (quiet_push _).shifts.bind fun _ => .proceed

theorem acts_pushScope {record : Record} (h : ∀ bindings, record = .dynamic bindings → bindings = ∅) :
    Acts i (pushScope record) :=
  .bind (calm_inRealm (Action.calm_withStore (fun s => s.keeps_addRecord record) fun s => s.settled_addRecord h)) fun _ =>
    .bind (calm_modifyFrame fun _ => ⟨rfl, rfl⟩) fun _ => acts_proceed

theorem acts_pushWithScope : Acts i pushWithScope := by
  refine .bind (quiet_pop (n := 0)).calm fun v => ?_
  split
  · exact acts_pushScope nofun
  · exact .bind (quiet_readStore (n := 0) _).calm fun _ => acts_raise _

theorem acts_popScope : Acts i popScope := by
  refine .bind (quiet_readFrame (n := 0) _).calm fun scope => ?_
  split
  · exact .bind (calm_modifyFrame fun _ => ⟨rfl, rfl⟩) fun _ => acts_proceed
  · exact acts_raise _

theorem quiet_setKeys (loop : Nat) (keys : List String) : Quiet n n (modifyFrame fun f => f.setKeys loop keys) :=
  quiet_modifyFrame fun _ => ⟨rfl, ⟨rfl, rfl, rfl, rfl⟩, .refl _⟩

theorem works_prepareKeys (loop : Nat) : Works i 1 0 (prepareKeys loop) :=
  .bind quiet_pop fun _ => .bind (quiet_readStore _) fun _ => .bind (quiet_setKeys _ _) fun _ => works_proceed

theorem works_hasKey (loop : Nat) : Works i 0 1 (hasKey loop) :=
  .bind (quiet_readFrame _) fun _ => works_pushBoolean _

theorem works_nextKey (loop : Nat) : Works i 0 1 (nextKey loop) := by
  refine .bind (quiet_readFrame _) fun keys => ?_
  split
  · exact .bind (quiet_modifyFrame fun _ => ⟨rfl, ⟨rfl, rfl, rfl, rfl⟩, .push _ _⟩) fun _ => works_proceed
  · exact works_push _

end Exec

open Exec

namespace Instruction

theorem works_exec {i : Instruction} (h : i.transfer = .falls) :
    Works i i.takes (i.takes + i.stackEffect).toNat i.exec := by
  obtain ⟨op, operand⟩ := i
  cases op with
  | loadConst =>
    refine .bind (quiet_constantOperand _) fun index => .bind (quiet_readFrame _) fun v => ?_
    split
    · exact works_push _
    · exact works_raise _
  | loadUndefined | loadNull => exact works_push _
  | loadTrue | loadFalse => exact works_pushBoolean _
  | pop => exact .bind quiet_pop fun _ => works_proceed
  | dup => exact .bind quiet_peek fun _ => works_push _
  | dup2 =>
    exact .bind quiet_pop2 fun _ => .bind (quiet_push _) fun _ => .bind (quiet_push _) fun _ =>
      .bind (quiet_push _) fun _ => works_push _
  | swap => exact .bind quiet_pop2 fun _ => .bind (quiet_push _) fun _ => works_push _
  | add | sub | mul | div | mod | eq | ne | strictEq | strictNe | lt | le | gt | ge | bitAnd | bitOr | bitXor | shl | shr
  | ushr =>
    simp only [exec, numeric, relational]
    exact works_operate _
  | neg | toNumber | not | bitNot | typeOf =>
    simp only [exec]
    exact works_transform _
  | loadLocal => exact .bind (quiet_temporaryOperand _) fun _ => .bind (quiet_readFrame _) fun _ => works_push _
  | storeLocal =>
    exact .bind (quiet_temporaryOperand _) fun _ => .bind quiet_pop fun _ =>
      .bind (quiet_modifyFrame fun _ => ⟨rfl, ⟨rfl, rfl, rfl, rfl⟩, .refl _⟩) fun _ => works_proceed
  | loadSlot => exact .bind (quiet_slotOperand _) fun s => works_loadSlot s.1 s.2
  | storeSlot => exact .bind (quiet_slotOperand _) fun s => works_storeSlot s.1 s.2
  | loadName => exact .bind (quiet_nameOperand _) fun name => works_loadName name
  | loadNameOrUndefined => exact .bind (quiet_nameOperand _) fun name => works_loadNameOrUndefined name
  | loadNameWithThis => exact .bind (quiet_nameOperand _) fun name => works_loadNameWithReceiver name
  | storeName =>
    refine ⟨fun a => ?_, (quiet_nameOperand _).shifts.bind fun name => moves_storeName name false⟩
    have hx := (quiet_nameOperand (n := 0) ⟨.storeName, operand⟩).calm a
    simp only [exec, Bind.bind, EStateM.bind]
    cases h : nameOperand ⟨.storeName, operand⟩ a with
    | error e b =>
      rw [h] at hx
      exact hx.stays _ _
    | ok name b =>
      obtain ⟨rfl, k, rfl, hname⟩ := nameOperand_eq_ok h
      exact acts_storeName fun _ _ => ⟨rfl, k, rfl, hname⟩
  | storeNameStrict =>
    exact .bind (quiet_nameOperand _) fun name => ⟨fun a => acts_storeName (by simp), moves_storeName name true⟩
  | deleteName => exact .bind (quiet_nameOperand _) fun name => works_deleteName name
  | getProperty => exact works_getProperty
  | setProperty => exact works_setProperty
  | deleteProperty => exact works_deleteProperty
  | defineProperty => exact .bind (quiet_nameOperand _) fun name => works_defineProperty name
  | call | callEval =>
    rcases operand with - | operand
    · exact works_raise _
    cases operand with
    | call n description =>
      have hone : (((n + 2 : Nat) : Int) + -((n : Int) + 1)).toNat = 1 := by omega
      exact hone.symm ▸ works_call _ n description
    | _ => exact works_raise _
  | new =>
    rcases operand with - | operand
    · exact works_raise _
    cases operand with
    | count n =>
      have hone : (((n + 1 : Nat) : Int) + -(n : Int)).toNat = 1 := by omega
      exact hone.symm ▸ works_construct n
    | _ => exact works_raise _
  | closure =>
    simp only [exec]
    split
    next index =>
      refine ⟨fun a => ?_, (quiet_readFrame _).shifts.bind fun v => ?_⟩
      · simp only [Bind.bind, EStateM.bind, readFrame]
        cases hcode : a.frame.code.functions[index]? with
        | some code => exact acts_closure ⟨index, rfl, hcode⟩
        | none => exact .refl a
      · split
        · exact moves_closure _
        · exact .raise _
    · exact works_raise _
  | newObject => exact works_newObject _
  | newArray => exact .bind (quiet_countOperand _) fun n => works_newObject (.array n)
  | instanceOf => exact works_isInstance
  | isIn => exact works_hasProperty
  | forInPrepare => exact .bind (quiet_temporaryOperand _) fun loop => works_prepareKeys loop
  | forInHasNext => exact .bind (quiet_temporaryOperand _) fun loop => works_hasKey loop
  | forInNext => exact .bind (quiet_temporaryOperand _) fun loop => works_nextKey loop
  | loadThis => exact .bind (quiet_readFrame _) fun _ => works_push _
  | jump | jumpIfFalse | jumpIfTrue | logicalAnd | logicalOr | enterTry =>
    rcases operand with - | operand
    · cases h
    · cases operand <;> cases h
  | leaveTry | pushCatchScope | pushWithScope | popScope | ret | throwValue => cases h

/-- **Where control falls through an instruction, it takes and leaves the operands that its effect
says.** -/
theorem moves_exec {i : Instruction} (h : i.transfer = .falls) :
    Moves Next.owed i.takes (i.takes + i.stackEffect).toNat i.exec := (works_exec h).moves

/-- **What an instruction does to the realm, and which frames it begins.** -/
theorem acts_exec (i : Instruction) : Acts i i.exec := by
  obtain ⟨op, operand⟩ := i
  cases op with
  | jump => exact .bind (calm_targetOperand _) fun t => .bind (calm_jumpTo t) fun _ => acts_proceed
  | jumpIfFalse => exact .bind (calm_targetOperand _) fun t => acts_jumpWhen false t
  | jumpIfTrue => exact .bind (calm_targetOperand _) fun t => acts_jumpWhen true t
  | logicalAnd => exact .bind (calm_targetOperand _) fun t => acts_shortCircuit false t
  | logicalOr => exact .bind (calm_targetOperand _) fun t => acts_shortCircuit true t
  | enterTry =>
    exact .bind (calm_targetOperand _) fun _ => .bind (calm_modifyFrame fun _ => ⟨rfl, rfl⟩) fun _ => acts_proceed
  | leaveTry => exact .bind (calm_modifyFrame fun _ => ⟨rfl, rfl⟩) fun _ => acts_proceed
  | pushCatchScope =>
    exact .bind (quiet_nameOperand (n := 0) _).calm fun _ => .bind (quiet_pop (n := 0)).calm fun _ =>
      acts_pushScope (by simp)
  | pushWithScope => exact acts_pushWithScope
  | popScope => exact acts_popScope
  | ret | throwValue => exact .bind (quiet_pop (n := 0)).calm fun _ a => .refl a
  | _ => exact (works_exec rfl).acts

end Instruction

end ScriptEngine
