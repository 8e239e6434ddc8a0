/-
What handlers see of an exception, and what callers are told of it. A fault is
turned into an error object for a handler, and an error object that nothing
catches is reported as the fault that it was made for. Main statement:
`Realm.report_exceptionValue`.
-/
import ScriptEngine.Engine.Failure
import ScriptEngine.Proofs.Heap.Journal

namespace ScriptEngine

/-! ## Error objects -/

theorem Store.object_addObject (s : Store) (o : Object) : (s.addObject o).2.object ⟨s.objects.size⟩ = o := by
  simp only [addObject, object, Array.getD_eq_getD_getElem?, Array.getElem?_push_size, Option.getD_some]

theorem Object.get_error (name message : String) :
    (error name message).get "name" = .string name ∧ (error name message).get "message" = .string message := by
  simp [error, get_put]

/-! ## More of a store -/

namespace Store

/-- The store with more objects and records behind those that it has. -/
def extended (s : Store) (objects : Array Object) (records : Array Record) : Store :=
  { s with objects := s.objects ++ objects, records := s.records ++ records }

variable (s : Store)

@[simp] theorem extended_empty : s.extended #[] #[] = s := by simp [extended]

theorem extended_addObject (o : Object) : (s.addObject o).2 = s.extended #[o] #[] := by
  simp [addObject, extended]

theorem extended_addRecord (objects : Array Object) (r : Record) :
    ((s.extended objects #[]).addRecord r).2 = s.extended objects #[r] := by
  simp [addRecord, extended]

theorem extended_extended (objects : Array Object) (records : Array Record) :
    (s.extended objects #[]).extended #[] records = s.extended objects records := by
  simp [extended]

theorem record_extended {r : RecordRef} (h : r.index < s.records.size) (objects : Array Object) (records : Array Record) :
    (s.extended objects records).record r = s.record r := by
  simp only [record, extended, Array.getD_eq_getD_getElem?, Array.getElem?_append_left h]

theorem object_extended (records : Array Record) (r : ObjectRef) : (s.extended #[] records).object r = s.object r := by
  simp [extended, object]

theorem textWithin_extended (records : Array Record) : ∀ n v, (s.extended #[] records).textWithin n v = s.textWithin n v
  | _, .undefined => by simp [textWithin]
  | _, .null => by simp [textWithin]
  | _, .boolean _ => by simp [textWithin]
  | _, .number _ => by simp [textWithin]
  | _, .string _ => by simp [textWithin]
  | _, .function _ => by simp [textWithin, extended, callable]
  | 0, .object _ => by simp [textWithin]
  | n + 1, .object r => by
    have h : (s.extended #[] records).textWithin n = s.textWithin n := funext (textWithin_extended records n)
    simp only [textWithin, h, object_extended]

theorem text_extended (records : Array Record) (v : Value) : (s.extended #[] records).text v = s.text v := by
  have hsize : (s.extended #[] records).objects.size = s.objects.size := by simp [extended]
  simp only [text, textWithin_extended, hsize]

end Store

/-! ## Reports -/

theorem Failure.ofRaised_extended (s : Store) (records : Array Record) (e : Raised) :
    ofRaised (s.extended #[] records) e = ofRaised s e := by
  cases e with
  | fault f => rfl
  | thrown v =>
    cases v with
    | object r => simp only [ofRaised, reported?, Store.object_extended, Store.text_extended]
    | _ => rfl

theorem Failure.ofRaised_error {s : Store} {r : ObjectRef} {o : Object} {kind : FailureKind} {name message : String}
    (ho : s.object r = o) (hclass : o.objectClass = .error) (hname : o.get "name" = .string name)
    (hmessage : o.get "message" = .string message) (hkind : kindOfName? name = some kind) :
    ofRaised s (.thrown (.object r)) = .report kind message := by
  have htext : ∀ t, s.text (.string t) = t := fun t => by simp [Store.text, Store.textWithin]
  simp [ofRaised, reported?, ho, hclass, hname, hmessage, htext, hkind]

theorem Realm.kindOfName?_visibleKind {f : Fault} {kind : ErrorKind} (h : visibleKind? f = some kind) :
    Failure.kindOfName? kind.name = some f.kind := by
  unfold visibleKind? at h
  split at h <;> cases h <;> simp_all [ErrorKind.name, Failure.kindOfName?]

theorem Realm.errorObject_eq (kind : ErrorKind) (message : String) (r : Realm) :
    ∃ o, r.errorObject kind message = (.object ⟨r.store.objects.size⟩, { r with store := r.store.extended #[o] #[] }) ∧
      o.objectClass = .error ∧ o.get "name" = .string kind.name ∧ o.get "message" = .string message := by
  obtain ⟨hname, hmessage⟩ := Object.get_error kind.name message
  have hclass : (Object.error kind.name message).objectClass = .error := by
    simp only [Object.error, Object.objectClass_put]
    rfl
  simp only [errorObject, Store.extended_addObject]
  split
  · exact ⟨_, rfl, hclass, hname, hmessage⟩
  · exact ⟨_, rfl, hclass, hname, hmessage⟩

theorem Realm.exceptionValue_none {r r' : Realm} {e : Raised} (h : r.exceptionValue e = (none, r')) : r' = r := by
  cases e with
  | thrown v => cases h
  | fault f =>
    rw [exceptionValue] at h
    cases hkind : visibleKind? f with
    | none =>
      simp only [hkind] at h
      cases h
      rfl
    | some kind =>
      simp only [hkind] at h
      cases h

/-- **What a handler sees of an exception is reported as the exception is.** The realm has an object
more then at the most, and records that come later make no difference. -/
theorem Realm.report_exceptionValue {r r' : Realm} {e : Raised} {v : Value} (h : r.exceptionValue e = (some v, r')) :
    ∃ objects, r' = { r with store := r.store.extended objects #[] } ∧ ∀ records,
      Failure.ofRaised (r.store.extended objects records) (.thrown v) = Failure.ofRaised r.store e := by
  cases e with
  | thrown w =>
    cases h
    exact ⟨#[], by rw [Store.extended_empty], fun records => Failure.ofRaised_extended _ records _⟩
  | fault f =>
    rw [exceptionValue] at h
    cases hkind : visibleKind? f with
    | none =>
      simp only [hkind] at h
      cases h
    | some kind =>
      obtain ⟨o, heq, hclass, hname, hmessage⟩ := errorObject_eq kind f.message r
      simp only [hkind, heq] at h
      cases h
      refine ⟨#[o], rfl, fun records => ?_⟩
      have ho : (r.store.extended #[o] records).object ⟨r.store.objects.size⟩ = o := by
        simp [Store.extended, Store.object]
      exact Failure.ofRaised_error ho hclass hname hmessage (kindOfName?_visibleKind hkind)

end ScriptEngine
