/-
Realms without code. What an action does to a realm does not depend on the code
in it, and an action that makes no function keeps what lowered code relies on.
Main definition: `Action.Tame`, with a lemma for every operation of the
language.
-/
import ScriptEngine.Proofs.Heap.Outline
import ScriptEngine.Proofs.Meaning.Operation

namespace ScriptEngine

/-- The options that a program can tell: how loops are laid out is none of them. -/
def EngineOptions.outline (o : EngineOptions) : EngineOptions :=
  { o with lowering := { o.lowering with loopRotation := true, checkBalance := true } }

namespace Realm

def outline (r : Realm) : Realm := { r with store := r.store.outline, options := r.options.outline }

@[simp] theorem outline_store (r : Realm) : r.outline.store = r.store.outline := rfl

@[simp] theorem outline_global (r : Realm) : r.outline.global = r.global := rfl

@[simp] theorem outline_depth (r : Realm) : r.outline.depth = r.depth := rfl

@[simp] theorem outline_maxCallDepth (r : Realm) : r.outline.options.maxCallDepth = r.options.maxCallDepth := rfl

@[simp] theorem outline_isStrict (r : Realm) : r.outline.options.lowering.isStrict = r.options.lowering.isStrict :=
  rfl

/-- What an action leaves as it is when it makes no function. -/
structure Keeps (r r' : Realm) : Prop where
  global : r'.global = r.global
  options : r'.options = r.options
  store : r.store.Keeps r'.store

theorem Keeps.refl (r : Realm) : r.Keeps r := ⟨rfl, rfl, .refl _⟩

theorem Keeps.trans {r s t : Realm} (h : r.Keeps s) (h' : s.Keeps t) : r.Keeps t :=
  ⟨h'.global.trans h.global, h'.options.trans h.options, h.store.trans h'.store⟩

end Realm

def Fault.Visible (f : Fault) : Prop := f.kind ≠ .internalError

def Raised.Visible : Raised → Prop
  | .fault f => f.Visible
  | .thrown _ => True

theorem Fault.Visible.kind {f : Fault} (h : f.Visible) : ∃ kind, Realm.visibleKind? f = some kind := by
  cases f with
  | internal _ => exact (h rfl).elim
  | _ => exact ⟨_, rfl⟩

namespace Realm

theorem exceptionValue_visible {e : Raised} (h : e.Visible) (r : Realm) :
    ∃ v r', r.exceptionValue e = (some v, r') ∧ r.Keeps r' ∧
      r.outline.exceptionValue e = (some v, r'.outline) := by
  cases e with
  | thrown v => exact ⟨v, r, rfl, .refl r, rfl⟩
  | fault f =>
    obtain ⟨kind, hk⟩ := h.kind
    refine ⟨(r.errorObject kind f.message).1, (r.errorObject kind f.message).2, ?_, ⟨rfl, rfl, ?_⟩, ?_⟩
    · simp only [exceptionValue, hk]
    · exact Store.keeps_addObject _ _
    · simp only [exceptionValue, hk]
      rfl

end Realm

/-- An action that does not depend on code, makes no function, and raises nothing that
scripts cannot see. -/
def Action.Tame (x : Action α) : Prop := ∀ r,
  match x r with
  | .ok a r' => r.Keeps r' ∧ x r.outline = .ok a r'.outline
  | .error e r' => r.Keeps r' ∧ x r.outline = .error e r'.outline ∧ e.Visible

namespace Action.Tame

theorem pure (a : α) : Tame (Pure.pure a) := fun r => ⟨.refl r, rfl⟩

theorem bind {x : Action α} {f : α → Action β} (hx : Tame x) (hf : ∀ a, Tame (f a)) : Tame (x >>= f) := by
  intro r
  have hr := hx r
  simp only [Bind.bind, EStateM.bind]
  cases h : x r with
  | error e r' =>
    rw [h] at hr
    rw [hr.2.1]
    exact ⟨hr.1, rfl, hr.2.2⟩
  | ok a r' =>
    rw [h] at hr
    rw [hr.2]
    have hr' := hf a r'
    dsimp only
    cases h' : f a r' with
    | error e r'' =>
      rw [h'] at hr'
      exact ⟨hr.1.trans hr'.1, hr'.2⟩
    | ok b r'' =>
      rw [h'] at hr'
      exact ⟨hr.1.trans hr'.1, hr'.2⟩

theorem readStore {f : Store → α} (h : ∀ s : Store, f s.outline = f s) : Tame (Realm.readStore f) :=
  fun r => ⟨.refl r, by simp [Realm.readStore, h]⟩

theorem withStore {f : Store → α × Store}
    (h : ∀ s : Store, f s.outline = ((f s).1, (f s).2.outline)) (hk : ∀ s : Store, s.Keeps (f s).2) :
    Tame (Realm.withStore f) := by
  intro r
  refine ⟨⟨rfl, rfl, hk r.store⟩, ?_⟩
  simp only [Realm.withStore, Realm.outline, h]

theorem modifyStore {f : Store → Store} (h : ∀ s : Store, f s.outline = (f s).outline)
    (hk : ∀ s : Store, s.Keeps (f s)) : Tame (Realm.modifyStore f) :=
  withStore (fun s => by rw [h]) hk

theorem raise {f : Fault} (h : f.Visible) : Tame (Realm.raise f : Action α) := fun r => ⟨.refl r, rfl, h⟩

theorem inspect {g : Store → Except Fault α} (h : ∀ s : Store, g s.outline = g s)
    (hv : ∀ s f, g s = .error f → f.Visible) : Tame (Meaning.inspect g) := by
  intro r
  cases hg : g r.store with
  | ok a => simp [Meaning.inspect, h, hg, Realm.Keeps.refl]
  | error f => simp [Meaning.inspect, h, hg, Realm.Keeps.refl, Raised.Visible, hv _ _ hg]

end Action.Tame

namespace Meaning

open ScriptEngine.Action

/-! ## Operators -/

theorem binary_outline (op : BinaryOp) (s : Store) : binary op s.outline = binary op s := by
  funext a b
  cases op <;> simp [binary, numeric, relational, hasKey, isInstance, Exec.add]

theorem visible_of_binary {op : BinaryOp} {s : Store} {a b : Value} {f : Fault} (h : binary op s a b = .error f) :
    f.Visible := by
  cases op with
  | isIn =>
    simp only [binary, hasKey] at h
    split at h
    · cases h
    · cases h
      exact nofun
  | instanceOf =>
    simp only [binary, isInstance] at h
    split at h
    · cases h
    · cases h
    · cases h
      exact nofun
  | _ => cases h

theorem tame_binary (op : BinaryOp) (a b : Value) : Tame (inspect fun s => binary op s a b) :=
  .inspect (fun s => by rw [binary_outline]) fun _ _ => visible_of_binary

/-! ## Variables -/

theorem tame_readVariable (chain : Chain) (name : String) : Tame (inspect (readVariable chain name)) := by
  refine .inspect (fun s => by simp only [readVariable, Store.lookup_outline]) fun s f h => ?_
  rw [readVariable] at h
  split at h
  · cases h
  · cases h
    exact nofun

theorem peekVariable_outline (chain : Chain) (name : String) (s : Store) :
    peekVariable chain name s.outline = peekVariable chain name s := by
  rw [peekVariable, Store.lookup_outline, peekVariable]

theorem tame_writeVariable (chain : Chain) (strict : Bool) (name : String) (v : Value) :
    Tame (writeVariable chain strict name v) := by
  refine .bind (.withStore (fun s => s.assign_outline chain name v) fun s => s.keeps_assign chain name v) ?_
  intro assigned
  cases assigned with
  | true => exact .pure ()
  | false =>
    cases strict with
    | true => exact .raise nofun
    | false =>
      exact .modifyStore (fun s => s.assignGlobal_outline chain name v) fun s => s.keeps_assignGlobal chain name v

theorem tame_deleteVariable (chain : Chain) (name : String) : Tame (deleteVariable chain name) :=
  .withStore (fun s => s.deleteBinding_outline name chain) fun s => s.keeps_deleteBinding name chain

/-! ## Properties -/

theorem tame_text (v : Value) : Tame (Realm.readStore fun s => s.text v) :=
  .readStore fun s => by rw [Store.text_outline]

theorem tame_readProperty (base key : Value) : Tame (inspect (readProperty base key)) := by
  refine .inspect (fun s => by simp only [readProperty, Store.text_outline, Store.property_outline]) ?_
  intro s f h
  rw [readProperty] at h
  split at h
  · cases h
    exact nofun
  · cases h

theorem tame_writeProperty (base key v : Value) : Tame (writeProperty base key v) := by
  refine .bind (tame_text key) fun k => ?_
  cases base with
  | object r => exact .modifyStore (fun s => s.setProperty_outline r k v) fun s => s.keeps_setProperty r k v
  | undefined => exact .bind (tame_text _) fun _ => .raise nofun
  | null => exact .bind (tame_text _) fun _ => .raise nofun
  | _ => exact .pure ()

theorem tame_deleteProperty (base key : Value) : Tame (deleteProperty base key) := by
  refine .bind (tame_text key) fun k => ?_
  cases base with
  | object r => exact .withStore (fun s => s.deleteProperty_outline r k) fun s => s.keeps_deleteProperty r k
  | undefined => exact .bind (tame_text _) fun _ => .raise nofun
  | null => exact .bind (tame_text _) fun _ => .raise nofun
  | _ => exact .pure true

theorem tame_defineProperty (made : ObjectRef) (key : String) (v : Value) : Tame (defineProperty made key v) :=
  .modifyStore (fun s => s.setProperty_outline made key v) fun s => s.keeps_setProperty made key v

theorem tame_makeObject (o : Object) : Tame (makeObject o) :=
  .withStore (fun s => s.addObject_outline o) fun s => s.keeps_addObject o

theorem tame_madeWith (made : ObjectRef) (f : FunctionRef) :
    Tame (Realm.modifyStore fun s => s.modifyObject made fun o => o.madeWith f) :=
  .modifyStore (fun s => s.modifyObject_outline made _) fun s => s.keeps_modifyObject made _

theorem tame_addRecord (r : Record) : Tame (Realm.withStore fun s => s.addRecord r) :=
  .withStore (fun s => s.addRecord_outline r) fun s => s.keeps_addRecord r

theorem tame_setSlot (r : RecordRef) (i : Nat) (v : Value) : Tame (Realm.withStore fun s => s.setSlot r i v) :=
  .withStore (fun s => s.setSlot_outline r i v) fun s => s.keeps_setSlot r i v

/-! ## Built-in functions -/

theorem tame_print (args : List Value) : Tame (Realm.print args) := by
  intro r
  refine ⟨⟨rfl, rfl, .refl _⟩, ?_⟩
  simp only [Realm.print, Realm.joined, Realm.outline_store, Store.text_outline]
  rfl

theorem tame_messageOf (args : List Value) : Tame (Realm.readStore fun s => Realm.messageOf s args) := by
  refine .readStore fun s => ?_
  simp only [Realm.messageOf, Store.text_outline]

theorem tame_errorObject (kind : ErrorKind) (message : String) :
    Tame (modifyGet (Realm.errorObject kind message) : Action Value) :=
  fun _ => ⟨⟨rfl, rfl, Store.keeps_addObject _ _⟩, rfl⟩

end Meaning

end ScriptEngine
