/-
How records change while programs run. A growing record keeps what it binds for
good, it may lose what can be deleted, and what it gains is what someone
declares or assigns (`Store.Turns`, with a lemma for every operation). Deleting
a name does what the flag of the binding says that the search ends at
(`deleteVariable_of_fixes`, `deleteVariable_of_loose`, `deleteBinding_of_find`).
-/
import ScriptEngine.Proofs.Heap.Outline

namespace ScriptEngine.Store

structure Growing (s : Store) (v : RecordRef) : Prop where
  lt : v.index < s.records.size
  dynamic : (s.record v).isDynamic = true

/-- A growing record binds the name, with or without leave to delete it. -/
def HasBinding (s : Store) (r : RecordRef) (name : String) (deletable : Bool) : Prop :=
  ∃ bindings b, s.record r = .dynamic bindings ∧ bindings[name]? = some b ∧ b.deletable = deletable

/-- The record has the name for good: in a slot, or in a binding that cannot be deleted. -/
def Fixes (s : Store) (r : RecordRef) (name : String) : Prop :=
  (∃ names slots, s.record r = .declarative names slots ∧ name ∈ names) ∨ s.HasBinding r name false

/-- The later store has the records of the earlier one, with all that they bind for good. The bindings
that growing records have got since are among `new`. -/
structure Turns (new : RecordRef → String → Bool → Prop) (s t : Store) : Prop where
  slots : s.KeepsRecords t
  growing : ∀ r, s.Growing r → t.Growing r
  firm : ∀ r name, s.HasBinding r name false → t.HasBinding r name false
  bound : ∀ r name d, t.HasBinding r name d → s.HasBinding r name d ∨ new r name d

abbrev Settled : Store → Store → Prop := Turns fun _ _ _ => False

namespace Turns

variable {new new' : RecordRef → String → Bool → Prop} {s t u : Store}

theorem refl (s : Store) : s.Turns new s := ⟨.refl s, fun _ h => h, fun _ _ h => h, fun _ _ _ => .inl⟩

theorem trans (h : s.Turns new t) (h' : t.Turns new u) : s.Turns new u where
  slots := h.slots.trans h'.slots
  growing r hr := h'.growing r (h.growing r hr)
  firm r name hb := h'.firm r name (h.firm r name hb)
  bound r name d hb := (h'.bound r name d hb).elim (h.bound r name d) .inr

theorem mono (h : s.Turns new t) (hn : ∀ r name d, new r name d → new' r name d) : s.Turns new' t :=
  ⟨h.slots, h.growing, h.firm, fun r name d hb => (h.bound r name d hb).imp_right (hn r name d)⟩

theorem fixes (h : s.Turns new t) {r : RecordRef} {name : String} (hf : s.Fixes r name) : t.Fixes r name := by
  rcases hf with ⟨names, slots, hr, hn⟩ | hb
  · obtain ⟨slots', hr', -⟩ := h.slots r names slots hr
    exact .inl ⟨names, slots', hr', hn⟩
  · exact .inr (h.firm r name hb)

theorem of_records_eq (h : t.records = s.records) : s.Turns new t := by
  have hr : ∀ r, t.record r = s.record r := fun r => by rw [record, record, h]
  refine ⟨.of_eq h, fun r hg => ⟨h ▸ hg.lt, hr r ▸ hg.dynamic⟩, fun r name hb => ?_, fun r name d hb => .inl ?_⟩
  · rwa [HasBinding, hr]
  · rwa [HasBinding, hr] at hb

end Turns

variable (s : Store)

/-! ## Records -/

theorem record_of_le {r : RecordRef} (h : s.records.size ≤ r.index) : s.record r = .dynamic ∅ := by
  rw [record, Array.getD_eq_getD_getElem?, Array.getElem?_eq_none h]
  rfl

theorem record_addRecord_of_ne (record : Record) {r : RecordRef} (h : r.index ≠ s.records.size) :
    (s.addRecord record).2.record r = s.record r := by
  simp only [Store.record, addRecord, Array.getD_eq_getD_getElem?, Array.getElem?_push, if_neg h]

theorem not_hasBinding_of_le {r : RecordRef} {name : String} {d : Bool} (h : s.records.size ≤ r.index) :
    ¬ s.HasBinding r name d := by
  rintro ⟨bindings, b, hr, hb, -⟩
  rw [s.record_of_le h] at hr
  cases hr
  simp at hb

theorem settled_addRecord {record : Record} (h : ∀ bindings, record = .dynamic bindings → bindings = ∅) :
    s.Settled (s.addRecord record).2 := by
  have hne : ∀ {r : RecordRef}, r.index < s.records.size → r.index ≠ s.records.size := Nat.ne_of_lt
  refine ⟨keepsRecords_addRecord s record, fun r hg => ⟨?_, ?_⟩, fun r name hb => ?_, fun r name d hb => .inl ?_⟩
  · exact Nat.lt_of_lt_of_le hg.lt (by simp [addRecord])
  · rw [s.record_addRecord_of_ne record (hne hg.lt)]
    exact hg.dynamic
  · have hlt : r.index < s.records.size := Nat.lt_of_not_le fun hle => s.not_hasBinding_of_le hle hb
    rwa [HasBinding, s.record_addRecord_of_ne record (hne hlt)]
  · by_cases heq : r.index = s.records.size
    · obtain ⟨bindings, b, hr, hb, -⟩ := hb
      have hr' : (s.addRecord record).2.record r = record := by
        obtain ⟨i⟩ := r
        cases heq
        exact s.record_addRecord record
      rw [hr'] at hr
      rw [h bindings hr] at hb
      simp at hb
    · rwa [HasBinding, s.record_addRecord_of_ne record heq] at hb

theorem settled_addSlots (names : Array String) : s.Settled (s.addRecord (.slots names)).2 :=
  s.settled_addRecord fun _ h => by cases h

theorem turns_modifyRecord {new : RecordRef → String → Bool → Prop} (r : RecordRef) {f : Record → Record}
    (hslots : ∀ names slots, ∃ slots', f (.declarative names slots) = .declarative names slots' ∧ slots'.size = slots.size)
    (hobject : ∀ o, f (.object o) = .object o)
    (hf : ∀ bindings, s.record r = .dynamic bindings → ∃ bindings', f (.dynamic bindings) = .dynamic bindings' ∧
      (∀ (name : String) (b : Binding), bindings[name]? = some b → b.deletable = false →
        ∃ b' : Binding, bindings'[name]? = some b' ∧ b'.deletable = false) ∧
      ∀ (name : String) (b' : Binding), bindings'[name]? = some b' →
        (∃ b : Binding, bindings[name]? = some b ∧ b.deletable = b'.deletable) ∨ new r name b'.deletable) :
    s.Turns new (s.modifyRecord r f) := by
  have hsize : (s.modifyRecord r f).records.size = s.records.size := Array.size_modify
  have hother : ∀ {r' : RecordRef}, r' ≠ r ∨ s.records.size ≤ r'.index → (s.modifyRecord r f).record r' = s.record r' := by
    intro r' h
    by_cases hlt : r'.index < s.records.size
    · rw [record_modifyRecord s r f r' hlt, if_neg (h.resolve_right (Nat.not_le_of_lt hlt))]
    · have hle := Nat.le_of_not_lt hlt
      rw [s.record_of_le hle, record_of_le _ (hsize ▸ hle)]
  have hself : r.index < s.records.size → (s.modifyRecord r f).record r = f (s.record r) := fun hlt => by
    rw [record_modifyRecord s r f r hlt, if_pos rfl]
  refine ⟨(keeps_modifyRecord s r hslots).records, fun r' hg => ⟨hsize ▸ hg.lt, ?_⟩, fun r' name hb => ?_,
    fun r' name d hb => ?_⟩
  · by_cases heq : r' = r
    · subst heq
      rw [hself hg.lt]
      cases hr : s.record r' with
      | dynamic bindings =>
        obtain ⟨bindings', hb, -⟩ := hf bindings hr
        rw [hb]
        rfl
      | _ =>
        have hd := hg.dynamic
        rw [hr] at hd
        cases hd
    · rw [hother (.inl heq)]
      exact hg.dynamic
  · by_cases heq : r' = r
    · subst heq
      have hlt : r'.index < s.records.size := Nat.lt_of_not_le fun hle => s.not_hasBinding_of_le hle hb
      obtain ⟨bindings, b, hr, hb, hd⟩ := hb
      obtain ⟨bindings', hb', hkeep, -⟩ := hf bindings hr
      obtain ⟨b', hname, hd'⟩ := hkeep name b hb hd
      exact ⟨bindings', b', by rw [hself hlt, hr, hb'], hname, hd'⟩
    · rwa [HasBinding, hother (.inl heq)]
  · by_cases hcase : r' ≠ r ∨ s.records.size ≤ r'.index
    · rw [HasBinding, hother hcase] at hb
      exact .inl hb
    · rw [not_or, Decidable.not_not, Nat.not_le] at hcase
      obtain ⟨rfl, hlt⟩ := hcase
      obtain ⟨bindings', b', hr', hb', rfl⟩ := hb
      rw [hself hlt] at hr'
      cases hr : s.record r' with
      | dynamic bindings =>
        obtain ⟨bindings'', hf', -, hback⟩ := hf bindings hr
        rw [hr, hf'] at hr'
        cases hr'
        refine (hback name b' hb').imp_left ?_
        rintro ⟨b, hb, hd⟩
        exact ⟨bindings, b, hr, hb, hd⟩
      | declarative names slots =>
        obtain ⟨slots', hf', -⟩ := hslots names slots
        rw [hr, hf'] at hr'
        cases hr'
      | object o =>
        rw [hr, hobject] at hr'
        cases hr'

/-! ## Operations -/

theorem settled_addObject (o : Object) : s.Settled (s.addObject o).2 := .of_records_eq rfl

theorem settled_addCallable (c : Callable) : s.Settled (s.addCallable c).2 := .of_records_eq rfl

theorem settled_modifyObject (r : ObjectRef) (f : Object → Object) : s.Settled (s.modifyObject r f) :=
  .of_records_eq rfl

theorem settled_setProperty (r : ObjectRef) (key : String) (v : Value) : s.Settled (s.setProperty r key v) :=
  .of_records_eq rfl

theorem settled_deleteProperty (r : ObjectRef) (key : String) : s.Settled (s.deleteProperty r key).2 :=
  .of_records_eq rfl

theorem settled_setSlot (r : RecordRef) (i : Nat) (v : Value) : s.Settled (s.setSlot r i v).2 :=
  s.turns_modifyRecord r (fun _ slots => ⟨slots.setIfInBounds i v, rfl, Array.size_setIfInBounds⟩) (fun _ => rfl)
    fun bindings _ => ⟨bindings, rfl, fun _ b hb hd => ⟨b, hb, hd⟩, fun _ b hb => .inl ⟨b, hb, rfl⟩⟩

theorem settled_setVariable (r : RecordRef) (name : String) (v : Value) : s.Settled (s.setVariable r name v).2 := by
  unfold setVariable
  split
  · exact s.settled_setSlot r _ v
  · refine s.turns_modifyRecord r (fun _ slots => ⟨slots, rfl, rfl⟩) (fun _ => rfl) fun bindings _ =>
      ⟨bindings.modify name fun b => { b with value := v }, rfl, fun name' b hb hd => ?_, fun name' b' hb' => .inl ?_⟩
    · rw [Std.TreeMap.getElem?_modify]
      split
      next heq =>
        cases Std.LawfulEqOrd.eq_of_compare heq
        exact ⟨{ b with value := v }, by rw [hb]; rfl, hd⟩
      next => exact ⟨b, hb, hd⟩
    · rw [Std.TreeMap.getElem?_modify] at hb'
      split at hb'
      next heq =>
        cases Std.LawfulEqOrd.eq_of_compare heq
        obtain ⟨b, hb, rfl⟩ := Option.map_eq_some_iff.1 hb'
        exact ⟨b, hb, rfl⟩
      next => exact ⟨b', hb', rfl⟩
  · exact s.settled_setProperty _ name v
  · exact .refl s

theorem turns_declare (r : RecordRef) (name : String) (deletable : Bool) :
    s.Turns (fun r' name' d => r' = r ∧ name' = name ∧ d = deletable) (s.declare r name deletable).2 := by
  refine s.turns_modifyRecord r (fun _ slots => ⟨slots, rfl, rfl⟩) (fun _ => rfl) fun bindings _ =>
    ⟨bindings.insertIfNew name ⟨.undefined, deletable⟩, rfl, fun name' b hb hd => ?_, fun name' b' hb' => ?_⟩
  · rw [Std.TreeMap.getElem?_insertIfNew]
    split
    next heq =>
      cases Std.LawfulEqOrd.eq_of_compare heq.1
      exact (heq.2 (Std.TreeMap.mem_iff_isSome_getElem?.2 (by rw [hb]; rfl))).elim
    next => exact ⟨b, hb, hd⟩
  · rw [Std.TreeMap.getElem?_insertIfNew] at hb'
    split at hb'
    next heq =>
      cases hb'
      exact .inr ⟨rfl, (Std.LawfulEqOrd.eq_of_compare heq.1).symm, rfl⟩
    next => exact .inl ⟨b', hb', rfl⟩

theorem turns_declareAll (r : RecordRef) (names : Array String) (deletable : Bool) :
    s.Turns (fun r' name d => r' = r ∧ name ∈ names ∧ d = deletable) (s.declareAll r names deletable) := by
  have hall : ∀ (xs : List String) (s : Store), (∀ x ∈ xs, x ∈ names) →
      s.Turns (fun r' name d => r' = r ∧ name ∈ names ∧ d = deletable)
        (xs.foldl (fun s name => (s.declare r name deletable).2) s) := by
    intro xs
    induction xs with
    | nil => exact fun s _ => .refl s
    | cons x xs ih =>
      intro s hx
      refine ((s.turns_declare r x deletable).mono ?_).trans (ih _ fun y hy => hx y (.tail _ hy))
      rintro r' name d ⟨rfl, rfl, rfl⟩
      exact ⟨rfl, hx _ (.head _), rfl⟩
  rw [declareAll, ← Array.foldl_toList]
  exact hall names.toList s fun x hx => Array.mem_toList_iff.1 hx

theorem settled_deleteVariable (r : RecordRef) (name : String) : s.Settled (s.deleteVariable r name).2 := by
  unfold deleteVariable
  split
  · exact .refl s
  · split
    next hd =>
      refine s.turns_modifyRecord r (fun _ slots => ⟨slots, rfl, rfl⟩) (fun _ => rfl) fun bindings hr =>
        ⟨bindings.erase name, rfl, fun name' b hb hfirm => ?_, fun name' b' hb' => .inl ?_⟩
      · rw [Std.TreeMap.getElem?_erase]
        split
        next heq =>
          cases Std.LawfulEqOrd.eq_of_compare heq
          rw [isDeletable, hr] at hd
          simp only [hb, Option.map_some, Option.getD_some, hfirm] at hd
          cases hd
        next => exact ⟨b, hb, hfirm⟩
      · rw [Std.TreeMap.getElem?_erase] at hb'
        split at hb'
        · cases hb'
        · exact ⟨b', hb', rfl⟩
    next => exact .refl s
  · exact s.settled_deleteProperty _ name
  · exact .refl s

theorem settled_assign (chain : Chain) (name : String) (v : Value) : s.Settled (s.assign chain name v).2 := by
  unfold assign
  split
  · exact s.settled_setVariable _ name v
  · exact .refl s

theorem turns_assignGlobal (chain : Chain) (name : String) (v : Value) :
    s.Turns (fun _ name' d => name' = name ∧ d = true) (s.assignGlobal chain name v) := by
  unfold assignGlobal
  split
  · refine ((s.turns_declare _ name true).mono ?_).trans ((settled_setVariable _ _ name v).mono fun _ _ _ => False.elim)
    rintro r' name' d ⟨-, hname, hd⟩
    exact ⟨hname, hd⟩
  · exact .refl s

theorem settled_deleteBinding (name : String) : ∀ (chain : Chain) (s : Store), s.Settled (s.deleteBinding name chain).2
  | [], s => .refl s
  | r :: outer, s => by
    have hd := s.settled_deleteVariable r name
    unfold deleteBinding
    cases h : s.deleteVariable r name with
    | mk d t =>
      rw [h] at hd
      cases d with
      | some _ => exact hd
      | none => exact hd.trans (settled_deleteBinding name outer t)

theorem settled_foldl {f : Store → α → Store} (hf : ∀ (s : Store) (a : α), s.Settled (f s a)) :
    ∀ (xs : List α) (s : Store), s.Settled (xs.foldl f s)
  | [], s => .refl s
  | x :: xs, s => (hf s x).trans (settled_foldl hf xs (f s x))

theorem fixes_declareAll {r : RecordRef} (names : Array String) {s : Store} (hr : s.Growing r)
    (hs : ∀ name, ¬ s.HasBinding r name true) {name : String} (hn : name ∈ names) :
    (s.declareAll r names false).Fixes r name := by
  have hone : ∀ {s : Store} (x : String), s.Growing r → (∀ name, ¬ s.HasBinding r name true) →
      (s.declare r x false).2.HasBinding r x false := by
    intro s x hr hs
    cases hrec : s.record r with
    | dynamic bindings =>
      have hrec' : (s.declare r x false).2.record r = .dynamic (bindings.insertIfNew x ⟨.undefined, false⟩) := by
        simp only [declare, record_modifyRecord s r _ r hr.lt, if_pos, hrec]
      cases hb : bindings[x]? with
      | none =>
        refine ⟨_, ⟨.undefined, false⟩, hrec', ?_, rfl⟩
        rw [Std.TreeMap.getElem?_insertIfNew, if_pos]
        refine ⟨Std.ReflCmp.compare_self, fun hmem => ?_⟩
        rw [Std.TreeMap.mem_iff_isSome_getElem?, hb] at hmem
        cases hmem
      | some b =>
        refine (s.turns_declare r x false).firm r x ⟨bindings, b, hrec, hb, ?_⟩
        cases hd : b.deletable with
        | false => rfl
        | true => exact (hs x ⟨bindings, b, hrec, hb, hd⟩).elim
    | _ =>
      have hd := hr.dynamic
      rw [hrec] at hd
      cases hd
  have hall : ∀ (xs : List String) (s : Store), s.Growing r → (∀ name, ¬ s.HasBinding r name true) → name ∈ xs →
      (xs.foldl (fun s name => (s.declare r name false).2) s).HasBinding r name false := by
    intro xs
    induction xs with
    | nil => exact fun _ _ _ hx => (List.not_mem_nil hx).elim
    | cons x xs ih =>
      intro s hr hs hx
      have hturns := s.turns_declare r x false
      have hr' := hturns.growing r hr
      have hs' : ∀ name, ¬ (s.declare r x false).2.HasBinding r name true := by
        intro name hb
        rcases hturns.bound r name true hb with hb | ⟨-, -, hd⟩
        · exact hs name hb
        · cases hd
      rcases List.mem_cons.1 hx with rfl | hx
      · have hrest := turns_declareAll (s.declare r name false).2 r xs.toArray false
        rw [declareAll, ← Array.foldl_toList] at hrest
        exact hrest.firm r name (hone name hr hs)
      · exact ih _ hr' hs' hx
  refine .inr ?_
  rw [declareAll, ← Array.foldl_toList]
  exact hall names.toList s hr hs (Array.mem_toList_iff.2 hn)

/-! ## Deleting -/

variable {s} {r : RecordRef} {name : String}

theorem Growing.bindings (h : s.Growing r) : ∃ bindings, s.record r = .dynamic bindings := by
  cases hr : s.record r with
  | dynamic bindings => exact ⟨bindings, rfl⟩
  | declarative names slots =>
    have := h.dynamic
    simp [hr, Record.isDynamic] at this
  | object o =>
    have := h.dynamic
    simp [hr, Record.isDynamic] at this

theorem Growing.hasBinding (h : s.Growing r) (hb : s.binds r name = true) : ∃ d, s.HasBinding r name d := by
  obtain ⟨bindings, hr⟩ := h.bindings
  rw [binds, place?, hr] at hb
  cases hname : bindings[name]? with
  | some b => exact ⟨b.deletable, bindings, b, hr, hname, rfl⟩
  | none =>
    have hc : bindings.contains name = false := by rw [Std.TreeMap.contains_eq_isSome_getElem?, hname]; rfl
    simp [hc] at hb

theorem binds_of_find {chain rest : Chain} (h : s.find name chain = some (r :: rest)) : s.binds r name = true := by
  induction chain with
  | nil => cases h
  | cons r' outer ih =>
    rw [find] at h
    split at h
    next hb =>
      cases h
      exact hb
    · exact ih h

theorem place?_of_hasBinding {d : Bool} (h : s.HasBinding r name d) :
    s.place? r name = some .binding ∧ s.isDeletable r name = d := by
  obtain ⟨bindings, b, hr, hb, hd⟩ := h
  have hc : bindings.contains name = true := by
    rw [Std.TreeMap.contains_eq_isSome_getElem?, hb]
    rfl
  refine ⟨?_, ?_⟩
  · rw [place?, hr]
    exact if_pos hc
  · rw [isDeletable, hr]
    simp only [hb, Option.map_some, Option.getD_some, hd]

theorem deleteVariable_of_fixes (h : s.Fixes r name) : s.deleteVariable r name = (some false, s) := by
  rcases h with ⟨names, slots, hr, hn⟩ | hb
  · have hi : ∃ i, names.findIdx? (· == name) = some i :=
      Option.isSome_iff_exists.1 (Array.findIdx?_isSome.trans (Array.any_eq_true'.2 ⟨name, hn, beq_self_eq_true name⟩))
    obtain ⟨i, hi⟩ := hi
    have hp : s.place? r name = some (.slot i) := by
      rw [place?, hr]
      simp only [hi, Option.map_some]
    unfold deleteVariable
    rw [hp]
  · obtain ⟨hp, hd⟩ := place?_of_hasBinding hb
    unfold deleteVariable
    rw [hp]
    simp only [hd, Bool.false_eq_true, if_false]

theorem deleteVariable_of_loose (h : s.HasBinding r name true) :
    ∃ t, s.deleteVariable r name = (some true, t) ∧ t.binds r name = false := by
  obtain ⟨hp, hd⟩ := place?_of_hasBinding h
  have hlt : r.index < s.records.size := Nat.lt_of_not_le fun hle => s.not_hasBinding_of_le hle h
  obtain ⟨bindings, b, hr, -⟩ := h
  have hresult : (s.deleteVariable r name).1 = some true := by
    unfold deleteVariable
    rw [hp]
    simp only [hd, if_true]
  have hbinds : (s.deleteVariable r name).2.binds r name = false := by
    unfold deleteVariable
    rw [hp]
    simp [hd, binds, place?, record_modifyRecord s r _ r hlt, hr]
  exact ⟨_, Prod.ext hresult rfl, hbinds⟩

theorem deleteBinding_of_find {chain rest : Chain} {d : Bool} {t : Store} (hf : s.find name chain = some (r :: rest))
    (hd : s.deleteVariable r name = (some d, t)) : s.deleteBinding name chain = (d, t) := by
  induction chain with
  | nil => cases hf
  | cons r' outer ih =>
    rw [find] at hf
    unfold deleteBinding
    split at hf
    · cases hf
      rw [hd]
    next hb =>
      have hnone : s.place? r' name = none := by
        rw [binds] at hb
        exact Option.not_isSome_iff_eq_none.1 hb
      have hskip : s.deleteVariable r' name = (none, s) := by
        unfold deleteVariable
        rw [hnone]
      rw [hskip]
      exact ih hf

end ScriptEngine.Store
