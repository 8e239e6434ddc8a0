/-
A store without code. Scripts see names and parameters of functions, never
instructions, so every operation on a store does the same when the code of its
closures is left out. The operations also keep the names of declarative
records, which is what lowered code relies on. Main statements: the equations
`*_outline`, and `Store.Keeps` of every operation that makes no function.
-/
import ScriptEngine.Heap.Chain
import ScriptEngine.Heap.Compare

namespace ScriptEngine

/-- A unit without its code: what a call needs to know, and what scripts can see. -/
def CodeUnit.outline (u : CodeUnit) : CodeUnit :=
  { u with instructions := #[], constants := #[], functions := #[], temporaries := 0, slotNames := ∅ }

def Callable.outline : Callable → Callable
  | .closure code scope => .closure code.outline scope
  | .builtin b => .builtin b

namespace Callable

@[simp] theorem outline_default : (default : Callable).outline = default := rfl

@[simp] theorem name_outline (c : Callable) : c.outline.name = c.name := by cases c <;> rfl

@[simp] theorem arity_outline (c : Callable) : c.outline.arity = c.arity := by cases c <;> rfl

@[simp] theorem isConstructor_outline (c : Callable) : c.outline.isConstructor = c.isConstructor := by
  cases c <;> rfl

@[simp] theorem text_outline (c : Callable) : c.outline.text = c.text := by cases c <;> rfl

end Callable

namespace Store

def outline (s : Store) : Store := { s with callables := s.callables.map Callable.outline }

@[simp] theorem objects_outline (s : Store) : s.outline.objects = s.objects := rfl

@[simp] theorem records_outline (s : Store) : s.outline.records = s.records := rfl

@[simp] theorem object_outline (s : Store) (r : ObjectRef) : s.outline.object r = s.object r := rfl

@[simp] theorem record_outline (s : Store) (r : RecordRef) : s.outline.record r = s.record r := rfl

@[simp] theorem callable_outline (s : Store) (f : FunctionRef) :
    s.outline.callable f = (s.callable f).outline := by
  simp only [callable, outline, Array.getD_eq_getD_getElem?, Array.getElem?_map]
  cases s.callables[f.index]? <;> rfl

/-! ## Conversions -/

@[simp] theorem textWithin_outline (s : Store) : ∀ n v, s.outline.textWithin n v = s.textWithin n v
  | _, .undefined => by simp [textWithin]
  | _, .null => by simp [textWithin]
  | _, .boolean _ => by simp [textWithin]
  | _, .number _ => by simp [textWithin]
  | _, .string _ => by simp [textWithin]
  | _, .function _ => by simp [textWithin]
  | 0, .object _ => by simp [textWithin]
  | n + 1, .object r => by
    have h : s.outline.textWithin n = s.textWithin n := funext (textWithin_outline s n)
    simp only [textWithin, object_outline, h]

@[simp] theorem text_outline (s : Store) : s.outline.text = s.text := by
  funext v
  simp [text]

@[simp] theorem toNumber_outline (s : Store) : s.outline.toNumber = s.toNumber := by
  funext v
  simp [toNumber]

@[simp] theorem primitive_outline (s : Store) : s.outline.primitive = s.primitive := by
  funext v
  simp [primitive]

@[simp] theorem looseEquals_outline (s : Store) : s.outline.looseEquals = s.looseEquals := by
  funext a b
  simp [looseEquals]

@[simp] theorem compare_outline (s : Store) : s.outline.compare = s.compare := by
  funext a b
  rw [compare, compare, primitive_outline, toNumber_outline]

@[simp] theorem property_outline (s : Store) : s.outline.property = s.property := by
  funext v key
  simp [property]

@[simp] theorem loopKeys_outline (s : Store) : s.outline.loopKeys = s.loopKeys := by
  funext v
  cases v <;> simp [loopKeys]

@[simp] theorem madeBy_outline (s : Store) : s.outline.madeBy = s.madeBy := rfl

/-! ## Changes of the store -/

@[simp] theorem addObject_outline (s : Store) (o : Object) :
    s.outline.addObject o = ((s.addObject o).1, (s.addObject o).2.outline) := rfl

@[simp] theorem addRecord_outline (s : Store) (r : Record) :
    s.outline.addRecord r = ((s.addRecord r).1, (s.addRecord r).2.outline) := rfl

theorem addCallable_outline (s : Store) (c : Callable) :
    s.outline.addCallable c.outline = ((s.addCallable c).1, (s.addCallable c).2.outline) := by
  simp [addCallable, outline]

@[simp] theorem modifyObject_outline (s : Store) (r : ObjectRef) (f : Object → Object) :
    s.outline.modifyObject r f = (s.modifyObject r f).outline := rfl

@[simp] theorem modifyRecord_outline (s : Store) (r : RecordRef) (f : Record → Record) :
    s.outline.modifyRecord r f = (s.modifyRecord r f).outline := rfl

@[simp] theorem setProperty_outline (s : Store) (r : ObjectRef) (key : String) (v : Value) :
    s.outline.setProperty r key v = (s.setProperty r key v).outline := by
  simp only [setProperty, object_outline, toNumber_outline, modifyObject_outline]

@[simp] theorem deleteProperty_outline (s : Store) (r : ObjectRef) (key : String) :
    s.outline.deleteProperty r key = ((s.deleteProperty r key).1, (s.deleteProperty r key).2.outline) := rfl

/-! ## Variables -/

@[simp] theorem place?_outline (s : Store) : s.outline.place? = s.place? := rfl

@[simp] theorem binds_outline (s : Store) : s.outline.binds = s.binds := rfl

@[simp] theorem slot?_outline (s : Store) : s.outline.slot? = s.slot? := rfl

@[simp] theorem valueOf?_outline (s : Store) : s.outline.valueOf? = s.valueOf? := rfl

@[simp] theorem receiver_outline (s : Store) : s.outline.receiver = s.receiver := rfl

@[simp] theorem isDeletable_outline (s : Store) : s.outline.isDeletable = s.isDeletable := rfl

@[simp] theorem setSlot_outline (s : Store) (r : RecordRef) (i : Nat) (v : Value) :
    s.outline.setSlot r i v = ((s.setSlot r i v).1, (s.setSlot r i v).2.outline) := rfl

@[simp] theorem setVariable_outline (s : Store) (r : RecordRef) (name : String) (v : Value) :
    s.outline.setVariable r name v = ((s.setVariable r name v).1, (s.setVariable r name v).2.outline) := by
  simp only [setVariable, place?_outline]
  cases s.place? r name with
  | none => rfl
  | some p => cases p <;> simp

@[simp] theorem declare_outline (s : Store) (r : RecordRef) (name : String) (deletable : Bool) :
    s.outline.declare r name deletable =
      ((s.declare r name deletable).1, (s.declare r name deletable).2.outline) := rfl

@[simp] theorem declareAll_outline (s : Store) (r : RecordRef) (names : Array String) (deletable : Bool) :
    s.outline.declareAll r names deletable = (s.declareAll r names deletable).outline := by
  simp only [declareAll, ← Array.foldl_toList]
  induction names.toList generalizing s with
  | nil => rfl
  | cons name names ih => simp [ih]

@[simp] theorem deleteVariable_outline (s : Store) (r : RecordRef) (name : String) :
    s.outline.deleteVariable r name =
      ((s.deleteVariable r name).1, (s.deleteVariable r name).2.outline) := by
  simp only [deleteVariable, place?_outline, isDeletable_outline]
  cases s.place? r name with
  | none => rfl
  | some p =>
    cases p with
    | slot _ => rfl
    | binding =>
      by_cases hd : s.isDeletable r name = true <;> simp [hd]
    | property _ => rfl

@[simp] theorem find_outline (s : Store) (name : String) : ∀ chain, s.outline.find name chain = s.find name chain
  | [] => rfl
  | r :: outer => by simp only [find, binds_outline, find_outline s name outer]

@[simp] theorem lookup_outline (s : Store) : s.outline.lookup = s.lookup := by
  funext chain name
  simp [lookup]

@[simp] theorem assign_outline (s : Store) (chain : Chain) (name : String) (v : Value) :
    s.outline.assign chain name v = ((s.assign chain name v).1, (s.assign chain name v).2.outline) := by
  simp only [assign, find_outline]
  cases s.find name chain with
  | none => rfl
  | some rest => cases rest <;> simp

@[simp] theorem assignGlobal_outline (s : Store) (chain : Chain) (name : String) (v : Value) :
    s.outline.assignGlobal chain name v = (s.assignGlobal chain name v).outline := by
  simp only [assignGlobal]
  cases chain.getLast? <;> simp

@[simp] theorem deleteBinding_outline (s : Store) (name : String) : ∀ chain,
    s.outline.deleteBinding name chain = ((s.deleteBinding name chain).1, (s.deleteBinding name chain).2.outline)
  | [] => rfl
  | r :: outer => by
    simp only [deleteBinding, deleteVariable_outline]
    cases h : s.deleteVariable r name with
    | mk d t =>
      cases d with
      | some _ => rfl
      | none => exact deleteBinding_outline t name outer

@[simp] theorem variableScope_outline (s : Store) : ∀ chain, s.outline.variableScope chain = s.variableScope chain
  | [] => rfl
  | [_] => rfl
  | r :: r' :: outer => by
    simp only [variableScope, record_outline, variableScope_outline s (r' :: outer)]

/-! ## What operations keep -/

/-- The later store has the same declarative records, up to the values in their slots. -/
def KeepsRecords (s t : Store) : Prop :=
  ∀ r names slots, s.record r = .declarative names slots →
    ∃ slots', t.record r = .declarative names slots' ∧ slots'.size = slots.size

structure Keeps (s t : Store) : Prop where
  callables : t.callables = s.callables
  records : s.KeepsRecords t

theorem KeepsRecords.refl (s : Store) : s.KeepsRecords s := fun _ _ slots h => ⟨slots, h, rfl⟩

theorem KeepsRecords.trans {s t u : Store} (h : s.KeepsRecords t) (h' : t.KeepsRecords u) :
    s.KeepsRecords u := by
  intro r names slots hr
  obtain ⟨slots', ht, hn⟩ := h r names slots hr
  obtain ⟨slots'', hu, hn'⟩ := h' r names slots' ht
  exact ⟨slots'', hu, hn'.trans hn⟩

theorem KeepsRecords.of_eq {s t : Store} (h : t.records = s.records) : s.KeepsRecords t := by
  intro r names slots hr
  refine ⟨slots, ?_, rfl⟩
  rw [record, h]
  exact hr

theorem Keeps.refl (s : Store) : s.Keeps s := ⟨rfl, .refl s⟩

theorem Keeps.trans {s t u : Store} (h : s.Keeps t) (h' : t.Keeps u) : s.Keeps u :=
  ⟨h'.callables.trans h.callables, h.records.trans h'.records⟩

theorem keepsRecords_addRecord (s : Store) (r : Record) : s.KeepsRecords (s.addRecord r).2 := by
  intro r' names slots hr
  refine ⟨slots, ?_, rfl⟩
  have hlt : r'.index < s.records.size := by
    by_cases hlt : r'.index < s.records.size
    · exact hlt
    · rw [record, Array.getD_eq_getD_getElem?, Array.getElem?_eq_none (Nat.le_of_not_lt hlt)] at hr
      cases hr
  rw [record, Array.getD_eq_getD_getElem?] at hr ⊢
  rw [addRecord, Array.getElem?_push_lt hlt, ← Array.getElem?_eq_getElem hlt]
  exact hr

theorem record_addRecord (s : Store) (r : Record) : (s.addRecord r).2.record (s.addRecord r).1 = r := by
  simp [record, addRecord]

theorem keeps_addObject (s : Store) (o : Object) : s.Keeps (s.addObject o).2 := ⟨rfl, .of_eq rfl⟩

theorem keeps_addRecord (s : Store) (r : Record) : s.Keeps (s.addRecord r).2 :=
  ⟨rfl, keepsRecords_addRecord s r⟩

theorem keeps_modifyObject (s : Store) (r : ObjectRef) (f : Object → Object) : s.Keeps (s.modifyObject r f) :=
  ⟨rfl, .of_eq rfl⟩

theorem record_modifyRecord (s : Store) (r : RecordRef) (f : Record → Record) (r' : RecordRef)
    (hr : r'.index < s.records.size) :
    (s.modifyRecord r f).record r' = if r' = r then f (s.record r') else s.record r' := by
  have heq : (r.index = r'.index) ↔ r' = r := by
    cases r
    cases r'
    simp [eq_comm]
  simp only [record, modifyRecord, Array.getD_eq_getD_getElem?, Array.getElem?_modify,
    Array.getElem?_eq_getElem hr, heq]
  split <;> simp

theorem keeps_modifyRecord (s : Store) (r : RecordRef) {f : Record → Record}
    (hf : ∀ names slots, ∃ slots', f (.declarative names slots) = .declarative names slots' ∧
      slots'.size = slots.size) : s.Keeps (s.modifyRecord r f) := by
  refine ⟨rfl, fun r' names slots hr => ?_⟩
  by_cases hlt : r'.index < s.records.size
  · rw [record_modifyRecord s r f r' hlt, hr]
    split
    · exact hf names slots
    · exact ⟨slots, rfl, rfl⟩
  · rw [record, Array.getD_eq_getD_getElem?, Array.getElem?_eq_none (Nat.le_of_not_lt hlt)] at hr
    cases hr

theorem keeps_setProperty (s : Store) (r : ObjectRef) (key : String) (v : Value) :
    s.Keeps (s.setProperty r key v) := keeps_modifyObject s r _

theorem keeps_deleteProperty (s : Store) (r : ObjectRef) (key : String) :
    s.Keeps (s.deleteProperty r key).2 := keeps_modifyObject s r _

theorem keeps_setSlot (s : Store) (r : RecordRef) (i : Nat) (v : Value) : s.Keeps (s.setSlot r i v).2 :=
  keeps_modifyRecord s r fun _ slots => ⟨slots.setIfInBounds i v, rfl, Array.size_setIfInBounds⟩

theorem keeps_declare (s : Store) (r : RecordRef) (name : String) (deletable : Bool) :
    s.Keeps (s.declare r name deletable).2 :=
  keeps_modifyRecord s r fun _ slots => ⟨slots, rfl, rfl⟩

theorem keeps_setVariable (s : Store) (r : RecordRef) (name : String) (v : Value) :
    s.Keeps (s.setVariable r name v).2 := by
  unfold setVariable
  split
  · exact keeps_setSlot s r _ v
  · exact keeps_modifyRecord s r fun _ slots => ⟨slots, rfl, rfl⟩
  · exact keeps_setProperty s _ name v
  · exact .refl s

theorem keeps_declareAll (s : Store) (r : RecordRef) (names : Array String) (deletable : Bool) :
    s.Keeps (s.declareAll r names deletable) := by
  simp only [declareAll, ← Array.foldl_toList]
  induction names.toList generalizing s with
  | nil => exact .refl s
  | cons name names ih => exact (keeps_declare s r name deletable).trans (ih _)

theorem keeps_deleteVariable (s : Store) (r : RecordRef) (name : String) :
    s.Keeps (s.deleteVariable r name).2 := by
  unfold deleteVariable
  split
  · exact .refl s
  · split
    · exact keeps_modifyRecord s r fun _ slots => ⟨slots, rfl, rfl⟩
    · exact .refl s
  · exact keeps_deleteProperty s _ name
  · exact .refl s

theorem keeps_assign (s : Store) (chain : Chain) (name : String) (v : Value) :
    s.Keeps (s.assign chain name v).2 := by
  unfold assign
  split
  · exact keeps_setVariable s _ name v
  · exact .refl s

theorem keeps_assignGlobal (s : Store) (chain : Chain) (name : String) (v : Value) :
    s.Keeps (s.assignGlobal chain name v) := by
  unfold assignGlobal
  split
  · exact (keeps_declare s _ name true).trans (keeps_setVariable _ _ name v)
  · exact .refl s

theorem keeps_deleteBinding (s : Store) (name : String) : ∀ chain, s.Keeps (s.deleteBinding name chain).2
  | [] => .refl s
  | r :: outer => by
    have hd := keeps_deleteVariable s r name
    unfold deleteBinding
    cases h : s.deleteVariable r name with
    | mk d t =>
      rw [h] at hd
      cases d with
      | some _ => exact hd
      | none => exact hd.trans (keeps_deleteBinding t name outer)

end Store

end ScriptEngine
