/-
Variables by name along a chain of records. Each operation acts on the nearest
record that binds the name, and changes that variable only: in this record, and
in those over the same object (`Updated`). Main statement: `names_agree`.
-/
import ScriptEngine.Proofs.Heap.Journal
import ScriptEngine.Proofs.Heap.Outline

namespace ScriptEngine

/-- What has the variables of a record: the record itself, or the object that it is over. -/
inductive Keeper
  | record (r : RecordRef)
  | object (o : ObjectRef)
  deriving DecidableEq

namespace Record

def read (objects : ObjectRef → Object) : Record → String → Option Value
  | .declarative names slots, name => (names.findIdx? (· == name)).bind fun i => slots[i]?
  | .dynamic bindings, name => bindings[name]?.map Binding.value
  | .object o, name => (objects o).get? name

/-- Where the record that is found at `r` has its variables. -/
def keeper (r : RecordRef) : Record → Keeper
  | .object o => .object o
  | _ => .record r

def Slotted : Record → Prop
  | .declarative names slots => slots.size = names.size
  | _ => True

end Record

theorem modify_eq_self {as : Array α} {i : Nat} {d : α} {f : α → α} (h : f (as.getD i d) = as.getD i d) :
    as.modify i f = as := by
  refine Array.ext_getElem? fun j => ?_
  rw [Array.getElem?_modify]
  split
  next hi =>
    subst hi
    rw [Array.getD_eq_getD_getElem?] at h
    cases ha : as[i]? with
    | none => rfl
    | some a =>
      rw [ha] at h
      exact congrArg some h
  · rfl

namespace Store

variable {s t u : Store} {r : RecordRef} {o : ObjectRef} {name : String} {x y : Option Value} {chain outer : Chain}

def keeper (s : Store) (r : RecordRef) : Keeper := (s.record r).keeper r

/-- A record as scopes have them. One over an array would not do: its length changes with other properties. -/
structure Proper (s : Store) (r : RecordRef) : Prop where
  there : r.index < s.records.size
  slotted : (s.record r).Slotted
  plain : ∀ o, s.record r = .object o → (s.object o).objectClass ≠ .array

/-- The variable of the record is `x` in the later store. It is so in every record with the same keeper, and
nothing else is different. -/
structure Updated (s : Store) (r : RecordRef) (name : String) (x : Option Value) (t : Store) : Prop where
  keeper : ∀ r', t.keeper r' = s.keeper r'
  value : ∀ r' n, t.valueOf? r' n = if s.keeper r' = s.keeper r ∧ n = name then x else s.valueOf? r' n
  slotted : ∀ r', (s.record r').Slotted → (t.record r').Slotted
  records : ∀ r', r' ≠ r → t.record r' = s.record r'
  objects : ∀ o, s.keeper r ≠ .object o → t.object o = s.object o
  callables : t.callables = s.callables

/-! ## One record -/

theorem valueOf?_eq (s : Store) (r : RecordRef) (name : String) :
    s.valueOf? r name = (s.record r).read s.object name := by
  unfold valueOf? place? Record.read
  cases hr : s.record r with
  | declarative names slots =>
    simp only [slot?, hr]
    cases names.findIdx? (· == name) <;> rfl
  | dynamic bindings =>
    simp only [Std.TreeMap.contains_eq_isSome_getElem?]
    cases bindings[name]? <;> rfl
  | object o =>
    simp only [Object.has, Object.get, Object.get?, Std.TreeMap.contains_eq_isSome_getElem?]
    cases hp : (s.object o).properties[name]? <;> simp [hp]

theorem binds_eq (h : (s.record r).Slotted) (name : String) : s.binds r name = (s.valueOf? r name).isSome := by
  rw [valueOf?_eq, binds, place?]
  cases hr : s.record r with
  | declarative names slots =>
    rw [hr] at h
    cases hi : names.findIdx? (· == name) with
    | none => simp [Record.read, hi]
    | some i =>
      obtain ⟨hlt, -⟩ := Array.findIdx?_eq_some_iff_getElem.1 hi
      have hlt : i < slots.size := (h : slots.size = names.size) ▸ hlt
      simp [Record.read, hi, hlt]
  | dynamic bindings =>
    simp only [Record.read, Std.TreeMap.contains_eq_isSome_getElem?]
    cases bindings[name]? <;> rfl
  | object o =>
    simp only [Record.read, Object.has, Object.get?, Std.TreeMap.contains_eq_isSome_getElem?]
    cases (s.object o).properties[name]? <;> rfl

theorem valueOf?_of_keeper {r' : RecordRef} (h : s.keeper r' = s.keeper r) : s.valueOf? r' name = s.valueOf? r name := by
  rw [valueOf?_eq, valueOf?_eq]
  rw [keeper, keeper] at h
  cases hr : s.record r <;> cases hr' : s.record r' <;> rw [hr, hr'] at h <;> cases h <;> simp_all

theorem receiver_of_keeper (h : t.keeper r = s.keeper r) : t.receiver r = s.receiver r := by
  rw [keeper, keeper] at h
  rw [receiver, receiver]
  cases hr : t.record r <;> cases hr' : s.record r <;> rw [hr, hr'] at h <;> cases h <;> rfl

/-! ## Changes -/

theorem Updated.trans (h : s.Updated r name x t) (h' : t.Updated r name y u) : s.Updated r name y u where
  keeper r' := (h'.keeper r').trans (h.keeper r')
  value r' n := by
    rw [h'.value, h.value, h.keeper, h.keeper]
    split <;> rfl
  slotted r' hr := h'.slotted r' (h.slotted r' hr)
  records r' hr := (h'.records r' hr).trans (h.records r' hr)
  objects o ho := (h'.objects o (h.keeper r ▸ ho)).trans (h.objects o ho)
  callables := h'.callables.trans h.callables

theorem updated_self (s : Store) (r : RecordRef) (name : String) : s.Updated r name (s.valueOf? r name) s where
  keeper _ := rfl
  value r' n := by
    split
    next h =>
      rw [h.2]
      exact valueOf?_of_keeper h.1
    · rfl
  slotted _ := id
  records _ _ := rfl
  objects _ _ := rfl
  callables := rfl

theorem updated_modifyRecord {f : Record → Record} {old new : Record} (hlt : r.index < s.records.size)
    (hr : s.record r = old) (hf : f old = new) (hold : old.keeper r = .record r) (hnew : new.keeper r = .record r)
    (hslots : old.Slotted → new.Slotted) (hread : ∀ n, new.read s.object n = if n = name then x else old.read s.object n) :
    s.Updated r name x (s.modifyRecord r f) := by
  have hself : (s.modifyRecord r f).record r = new := by rw [record_modifyRecord s r f r hlt, if_pos rfl, hr, hf]
  have hother : ∀ r', r' ≠ r → (s.modifyRecord r f).record r' = s.record r' := by
    intro r' hne
    have hindex : r.index ≠ r'.index := fun h => hne (by cases r; cases r'; simp_all)
    simp only [record, modifyRecord, Array.getD_eq_getD_getElem?, Array.getElem?_modify, if_neg hindex]
  have hkeeper : s.keeper r = .record r := by rw [keeper, hr, hold]
  refine ⟨fun r' => ?_, fun r' n => ?_, fun r' h => ?_, hother, fun _ _ => rfl, rfl⟩ <;> by_cases hr' : r' = r
  · rw [hr', hkeeper, keeper, hself, hnew]
  · rw [keeper, keeper, hother r' hr']
  · rw [hr', valueOf?_eq, valueOf?_eq, hself, hr]
    exact (hread n).trans (by simp only [true_and])
  · rw [valueOf?_eq, valueOf?_eq, hother r' hr', if_neg]
    · rfl
    · rintro ⟨h, -⟩
      rw [hkeeper, keeper] at h
      cases hrecord : s.record r' <;> simp [hrecord, Record.keeper, hr'] at h
  · rw [hr', hself]
    exact hslots (hr ▸ hr' ▸ h)
  · rwa [hother r' hr']

theorem updated_bindings {f : Record → Record} {old new : Std.TreeMap String Binding Ord.compare} (hlt : r.index < s.records.size)
    (hr : s.record r = .dynamic old) (hf : f (.dynamic old) = .dynamic new)
    (hread : ∀ n, new[n]?.map Binding.value = if n = name then x else old[n]?.map Binding.value) :
    s.Updated r name x (s.modifyRecord r f) :=
  updated_modifyRecord hlt hr hf rfl rfl id hread

theorem object_modifyObject {f : Object → Object} (ho : o.index < s.objects.size) (o' : ObjectRef) :
    (s.modifyObject o f).object o' = if o' = o then f (s.object o) else s.object o' := by
  simp only [object, modifyObject, Array.getD_eq_getD_getElem?, Array.getElem?_modify]
  by_cases h : o' = o
  · subst h
    simp [ho]
  · have hindex : o.index ≠ o'.index := fun hi => h (by cases o; cases o'; simp_all)
    rw [if_neg hindex, if_neg h]

theorem updated_modifyObject {f : Object → Object} (hr : s.record r = .object o) (ho : o.index < s.objects.size)
    (hget : ∀ n, (f (s.object o)).get? n = if n = name then x else (s.object o).get? n) :
    s.Updated r name x (s.modifyObject o f) := by
  have hkeeper : s.keeper r = .object o := by rw [keeper, hr, Record.keeper]
  refine ⟨fun _ => rfl, fun r' n => ?_, fun _ => id, fun _ _ => rfl, fun o' ho' => ?_, rfl⟩
  · rw [valueOf?_eq, valueOf?_eq, hkeeper, keeper]
    change (s.record r').read _ n = _
    cases s.record r' with
    | object o' =>
      simp only [Record.read, Record.keeper, object_modifyObject ho, Keeper.object.injEq]
      by_cases h : o' = o
      · simp only [h, if_true, true_and, hget]
      · simp only [h, false_and, if_false]
    | _ => rw [if_neg (by simp [Record.keeper])]; rfl
  · rw [object_modifyObject ho, if_neg]
    rintro rfl
    exact ho' hkeeper

/-! ## The operations -/

theorem lt_of_has (h : (s.object o).has name = true) : o.index < s.objects.size := by
  refine Nat.lt_of_not_le fun hle => ?_
  rw [object, Array.getD_eq_getD_getElem?, Array.getElem?_eq_none hle] at h
  simp [Object.has, default, Object.empty, Object.ofClass] at h

theorem updated_setVariable (h : s.Proper r) (hb : s.binds r name = true) (v : Value) :
    ∃ t, s.setVariable r name v = (true, t) ∧ s.Updated r name (some v) t := by
  have hslotted := h.slotted
  unfold setVariable
  rw [binds, place?] at hb
  cases hr : s.record r with
  | declarative names slots =>
    rw [hr] at hb hslotted
    obtain ⟨i, hi⟩ := Option.isSome_iff_exists.1 ((Option.isSome_map).symm.trans hb)
    obtain ⟨hlt, hname, -⟩ := Array.findIdx?_eq_some_iff_getElem.1 hi
    have hslot : i < slots.size := (hslotted : slots.size = names.size) ▸ hlt
    simp only [place?, hr, hi, Option.map_some, setSlot, slot?, hslot, Array.getElem?_eq_getElem, Option.isSome_some]
    refine ⟨_, rfl, updated_modifyRecord h.there hr rfl rfl rfl (fun h => Array.size_setIfInBounds.trans h) fun n => ?_⟩
    simp only [Record.read]
    by_cases hn : n = name
    · simp [hn, hi, hslot]
    · rw [if_neg hn]
      cases hj : names.findIdx? (· == n) with
      | none => rfl
      | some j =>
        obtain ⟨_, hname', -⟩ := Array.findIdx?_eq_some_iff_getElem.1 hj
        have hij : i ≠ j := by
          rintro rfl
          exact hn ((beq_iff_eq.1 hname').symm.trans (beq_iff_eq.1 hname))
        simp [Array.getElem?_setIfInBounds, hij]
  | dynamic bindings =>
    rw [hr] at hb
    have hc : bindings.contains name = true := by simpa using hb
    simp only [place?, hr, hc, if_true]
    refine ⟨_, rfl, updated_bindings h.there hr rfl fun n => ?_⟩
    rw [Std.TreeMap.contains_eq_isSome_getElem?] at hc
    obtain ⟨b, hb⟩ := Option.isSome_iff_exists.1 hc
    rw [Std.TreeMap.getElem?_modify]
    by_cases hn : n = name
    · simp [hn, hb]
    · simp [hn, Ne.symm hn]
  | object o =>
    rw [hr] at hb
    have hc : (s.object o).has name = true := by simpa using hb
    have hplain : ((s.object o).objectClass == .array) = false := beq_eq_false_iff_ne.2 (h.plain o hr)
    simp only [place?, hr, hc, if_true]
    refine ⟨_, rfl, updated_modifyObject hr (lt_of_has hc) fun n => ?_⟩
    simp only [Object.set, hplain, Bool.false_eq_true, if_false, Object.get?_put, eq_comm]

theorem updated_deleteVariable (h : s.Proper r) (hb : s.binds r name = true) :
    s.deleteVariable r name = (some false, s) ∨
      ∃ t, s.deleteVariable r name = (some true, t) ∧ s.Updated r name none t := by
  unfold deleteVariable
  rw [binds, place?] at hb
  cases hr : s.record r with
  | declarative names slots =>
    rw [hr] at hb
    obtain ⟨i, hi⟩ := Option.isSome_iff_exists.1 ((Option.isSome_map).symm.trans hb)
    simp only [place?, hr, hi, Option.map_some, true_or]
  | dynamic bindings =>
    rw [hr] at hb
    have hc : bindings.contains name = true := by simpa using hb
    simp only [place?, hr, hc, if_true]
    cases s.isDeletable r name with
    | false => exact .inl rfl
    | true =>
      refine .inr ⟨_, rfl, updated_bindings h.there hr rfl fun n => ?_⟩
      rw [Std.TreeMap.getElem?_erase]
      by_cases hn : n = name
      · simp [hn]
      · simp [hn, Ne.symm hn]
  | object o =>
    rw [hr] at hb
    have hc : (s.object o).has name = true := by simpa using hb
    simp only [place?, hr, hc, if_true, deleteProperty]
    cases hd : (s.object o).canDelete name with
    | false =>
      have herase : (s.object o).erase name = s.object o := by simp only [Object.erase, hd, Bool.and_false]; rfl
      have hobjects : s.objects.modify o.index (fun o => o.erase name) = s.objects := modify_eq_self (d := default) herase
      exact .inl (by rw [modifyObject, hobjects])
    | true =>
      refine .inr ⟨_, rfl, updated_modifyObject hr (lt_of_has hc) fun n => ?_⟩
      simp only [Object.erase, hc, hd, Bool.and_self, if_true, Object.get?, Std.TreeMap.getElem?_erase]
      by_cases hn : n = name
      · simp [hn]
      · simp [hn, Ne.symm hn]

theorem declare_of_fixed (h : (s.record r).isDynamic = false) (deletable : Bool) :
    (s.declare r name deletable).2 = s := by
  simp only [declare, modifyRecord]
  rw [modify_eq_self (d := default)]
  change _ = s.record r
  cases hr : s.record r with
  | dynamic bindings => simp [hr, Record.isDynamic] at h
  | _ => simp only [show s.records.getD r.index default = s.record r from rfl, hr]

theorem updated_declare {bindings : Std.TreeMap String Binding Ord.compare} (hlt : r.index < s.records.size)
    (hr : s.record r = .dynamic bindings) (name : String) (deletable : Bool) :
    s.Updated r name (some ((s.valueOf? r name).getD .undefined)) (s.declare r name deletable).2 := by
  rw [valueOf?_eq, hr]
  refine updated_bindings hlt hr rfl fun n => ?_
  rw [Std.TreeMap.getElem?_insertIfNew, Record.read]
  by_cases hn : n = name
  · cases hb : bindings[name]? with
    | none => simp [hn, hb, Std.TreeMap.mem_iff_isSome_getElem?]
    | some b =>
      rw [if_neg fun h => h.2 (Std.TreeMap.mem_iff_isSome_getElem?.2 (by rw [hb]; rfl)), if_pos hn, hn, hb]
      rfl
  · simp [hn, Ne.symm hn]

theorem updated_assignGlobal (h : s.Proper r) (hlast : chain.getLast? = some r) (name : String) (v : Value) :
    ∃ x, s.Updated r name x (s.assignGlobal chain name v) ∧ ((s.record r).isDynamic = true → x = some v) := by
  simp only [assignGlobal, hlast]
  cases hd : (s.record r).isDynamic with
  | false =>
    rw [declare_of_fixed hd]
    cases hb : s.binds r name with
    | true =>
      obtain ⟨t, ht, hset⟩ := updated_setVariable h hb v
      exact ⟨some v, by rwa [ht], fun h => by cases h⟩
    | false =>
      rw [binds, Option.isSome_eq_false_iff, Option.isNone_iff_eq_none] at hb
      exact ⟨_, by simpa only [setVariable, hb] using s.updated_self r name, fun h => by cases h⟩
  | true =>
    cases hr : s.record r with
    | dynamic bindings =>
      have hdeclared := updated_declare h.there hr name true
      have hproper : (s.declare r name true).2.Proper r := by
        refine ⟨by simpa [declare, modifyRecord] using h.there, hdeclared.slotted r h.slotted, fun o ho => ?_⟩
        have hkeeper := hdeclared.keeper r
        rw [keeper, keeper, ho, hr] at hkeeper
        cases hkeeper
      have hb : (s.declare r name true).2.binds r name = true := by
        rw [binds_eq hproper.slotted, hdeclared.value]
        simp
      obtain ⟨t, ht, hset⟩ := updated_setVariable hproper hb v
      exact ⟨_, by simpa only [ht] using hdeclared.trans hset, fun _ => rfl⟩
    | _ => simp [hr, Record.isDynamic] at hd

/-! ## Chains -/

theorem lookup_eq (h : ∀ r ∈ chain, (s.record r).Slotted) (name : String) :
    s.lookup chain name = chain.findSome? fun r => (s.valueOf? r name).map fun v => (v, s.receiver r) := by
  induction chain with
  | nil => rfl
  | cons r outer ih =>
    have hb := binds_eq (h r (.head _)) name
    rw [List.findSome?_cons, ← ih fun r hr => h r (.tail _ hr), lookup, find]
    cases hv : s.valueOf? r name with
    | none => rw [if_neg (by simp [hb, hv])]; rfl
    | some v =>
      rw [if_pos (by simp [hb, hv])]
      simp only [hv, Option.map_some]

theorem find_append {inner : Chain} (hi : ∀ r ∈ inner, s.binds r name = false) (hb : s.binds r name = true)
    (outer : Chain) : s.find name (inner ++ r :: outer) = some (r :: outer) := by
  induction inner with
  | nil => simp only [List.nil_append, find, hb, if_true]
  | cons r' inner ih =>
    rw [List.cons_append, find, hi r' (.head _), ih fun r hr => hi r (.tail _ hr)]
    rfl

theorem find_eq_none (h : ∀ r ∈ chain, s.binds r name = false) : s.find name chain = none := by
  induction chain with
  | nil => rfl
  | cons r outer ih =>
    rw [find, h r (.head _), ih fun r hr => h r (.tail _ hr)]
    rfl

namespace Updated

variable (h : s.Updated r name x t) (hc : ∀ r ∈ chain, (s.record r).Slotted)
include h hc

theorem slottedChain : ∀ r ∈ chain, (t.record r).Slotted := fun r' hr' => h.slotted r' (hc r' hr')

theorem lookup_apart {n : String} (hn : ∀ r' ∈ chain, ¬(s.keeper r' = s.keeper r ∧ n = name)) :
    t.lookup chain n = s.lookup chain n := by
  rw [lookup_eq (h.slottedChain hc), lookup_eq hc]
  clear hc
  induction chain with
  | nil => rfl
  | cons r' outer ih =>
    rw [List.findSome?_cons, List.findSome?_cons, h.value, if_neg (hn r' (.head _)), receiver_of_keeper (h.keeper r'),
      ih fun r' hr' => hn r' (.tail _ hr')]

end Updated

section

variable {inner : Chain} (hc : ∀ r' ∈ inner ++ r :: outer, (s.record r').Slotted)
  (hi : ∀ r ∈ inner, s.binds r name = false) (hb : s.binds r name = true)
include hc hi hb

theorem Updated.lookup_append (h : s.Updated r name x t) : t.lookup (inner ++ r :: outer) name =
    (x.map fun v => (v, s.receiver r)).or (t.lookup outer name) := by
  have hcouter : ∀ r' ∈ outer, (s.record r').Slotted := fun r' hr' => hc r' (by simp [hr'])
  have hnone : ∀ r' ∈ inner, t.valueOf? r' name = none := by
    intro r' hr'
    have hs : s.valueOf? r' name = none := by
      have hbinds := binds_eq (hc r' (by simp [hr'])) name
      rw [hi r' hr'] at hbinds
      exact Option.isNone_iff_eq_none.1 (Option.isSome_eq_false_iff.1 hbinds.symm)
    rw [h.value, if_neg, hs]
    rintro ⟨hkeeper, -⟩
    rw [binds_eq (hc r (by simp)), ← valueOf?_of_keeper hkeeper, hs] at hb
    cases hb
  have hinner : (inner.findSome? fun r => (t.valueOf? r name).map fun v => (v, t.receiver r)) = none :=
    List.findSome?_eq_none_iff.2 fun r' hr' => by rw [hnone r' hr']; rfl
  rw [lookup_eq (h.slottedChain hc), lookup_eq (h.slottedChain hcouter), List.findSome?_append, hinner,
    List.findSome?_cons, h.value, receiver_of_keeper (h.keeper r)]
  cases x <;> simp

end

theorem deleteBinding_append {inner : Chain} (hi : ∀ r ∈ inner, s.binds r name = false) (chain : Chain) :
    s.deleteBinding name (inner ++ chain) = s.deleteBinding name chain := by
  induction inner with
  | nil => rfl
  | cons r' inner ih =>
    have hplace := hi r' (.head _)
    rw [binds, Option.isSome_eq_false_iff, Option.isNone_iff_eq_none] at hplace
    rw [List.cons_append, deleteBinding, deleteVariable, hplace]
    exact ih fun r hr => hi r (.tail _ hr)

/-- **The operations by name agree on the record they act on.** If no record of the chain binds the name, nothing
is found, assigned or deleted. Otherwise all act on the nearest one that does. -/
theorem names_agree {s : Store} {chain : Chain} (h : ∀ r ∈ chain, s.Proper r) (name : String) :
    ((∀ r ∈ chain, s.binds r name = false) ∧ s.find name chain = none ∧ s.lookup chain name = none ∧
        (∀ v, s.assign chain name v = (false, s)) ∧ s.deleteBinding name chain = (true, s) ∨
      ∃ inner r outer value this, chain = inner ++ r :: outer ∧ (∀ r' ∈ inner, s.binds r' name = false) ∧
        s.binds r name = true ∧ s.find name chain = some (r :: outer) ∧ s.valueOf? r name = some value ∧
        (∀ o, this = .object o ↔ s.record r = .object o) ∧ s.lookup chain name = some (value, this) ∧
        (∀ v, ∃ t, s.assign chain name v = (true, t) ∧ s.Updated r name (some v) t ∧
          t.lookup chain name = some (v, this) ∧ ∀ n, n ≠ name → t.lookup chain n = s.lookup chain n) ∧
        (s.deleteBinding name chain = (false, s) ∨ ∃ t, s.deleteBinding name chain = (true, t) ∧
          s.Updated r name none t ∧ t.lookup chain name = t.lookup outer name ∧
          ((∀ r' ∈ outer, s.keeper r' ≠ s.keeper r) → t.lookup outer name = s.lookup outer name) ∧
          ∀ n, n ≠ name → t.lookup chain n = s.lookup chain n)) ∧
      ∀ v r, chain.getLast? = some r → ∃ x, s.Updated r name x (s.assignGlobal chain name v) ∧
        ((s.record r).isDynamic = true → x = some v) := by
  have hc : ∀ r ∈ chain, (s.record r).Slotted := fun r hr => (h r hr).slotted
  refine ⟨?_, fun v r hr => updated_assignGlobal (h r (List.mem_of_getLast? hr)) hr name v⟩
  cases hfind : chain.find? (s.binds · name) with
  | none =>
    have hnone : ∀ r ∈ chain, s.binds r name = false := by simpa using hfind
    have hdelete := deleteBinding_append hnone []
    rw [List.append_nil] at hdelete
    refine .inl ⟨hnone, find_eq_none hnone, ?_, fun v => ?_, hdelete⟩
    · rw [lookup, find_eq_none hnone]
    · rw [assign, find_eq_none hnone]
  | some r =>
    obtain ⟨hb, inner, outer, rfl, hi⟩ := List.find?_eq_some_iff_append.1 hfind
    have hi : ∀ r' ∈ inner, s.binds r' name = false := by simpa using hi
    have hr := h r (by simp)
    have hf := find_append hi hb outer
    obtain ⟨value, hvalue⟩ := Option.isSome_iff_exists.1 ((binds_eq hr.slotted name).symm.trans hb)
    refine .inr ⟨inner, r, outer, value, s.receiver r, rfl, hi, hb, hf, hvalue, fun o => ?_, ?_, fun v => ?_, ?_⟩
    · rw [receiver]
      cases s.record r <;> simp
    · rw [lookup, hf]
      simp only [hvalue, Option.map_some]
    · obtain ⟨t, ht, hset⟩ := updated_setVariable hr hb v
      refine ⟨t, by rw [assign, hf]; exact ht, hset, ?_, fun n hn => hset.lookup_apart hc fun _ _ h => hn h.2⟩
      rw [hset.lookup_append hc hi hb]
      rfl
    · rw [deleteBinding_append hi, deleteBinding]
      rcases updated_deleteVariable hr hb with hd | ⟨t, hd, hdelete⟩
      · exact .inl (by rw [hd])
      · refine .inr ⟨t, by rw [hd], hdelete, ?_, fun hkeepers => ?_, fun n hn => ?_⟩
        · rw [hdelete.lookup_append hc hi hb]
          rfl
        · exact hdelete.lookup_apart (fun r' hr' => hc r' (by simp [hr'])) fun r' hr' h => hkeepers r' hr' h.1
        · exact hdelete.lookup_apart hc fun _ _ h => hn h.2

/-- A property of an object comes before a slot and a global variable of the same name. -/
theorem names_agree_object : ∃ s t : Store, s.record ⟨1⟩ = .slots #["x"] ∧ s.record ⟨2⟩ = .object ⟨0⟩ ∧
    s.assign [⟨2⟩, ⟨1⟩, ⟨0⟩] "x" .undefined = (true, t) ∧
    t.lookup [⟨2⟩, ⟨1⟩, ⟨0⟩] "x" = some (.undefined, .object ⟨0⟩) := by
  let s : Store := ⟨#[Object.empty.put "x" .null], #[], #[.dynamic ∅, .slots #["x"], .object ⟨0⟩]⟩
  have hproper : ∀ r ∈ [⟨2⟩, ⟨1⟩, ⟨0⟩], s.Proper r := by
    simp only [List.mem_cons, List.not_mem_nil, or_false]
    rintro r (rfl | rfl | rfl)
    · refine ⟨by decide, trivial, fun o ho => ?_⟩
      cases ho
      decide +kernel
    · exact ⟨by decide, rfl, fun o ho => by cases ho⟩
    · exact ⟨by decide, trivial, fun o ho => by cases ho⟩
  have hfind : s.find "x" [⟨2⟩, ⟨1⟩, ⟨0⟩] = some [⟨2⟩, ⟨1⟩, ⟨0⟩] := by decide +kernel
  rcases (names_agree hproper "x").1 with ⟨-, hnone, -⟩ | ⟨_, r, outer, value, this, -, -, -, hr, -, hthis, -, hassign, -⟩
  · cases hnone.symm.trans hfind
  · cases hr.symm.trans hfind
    obtain ⟨t, ht, -, hlookup, -⟩ := hassign .undefined
    exact ⟨s, t, rfl, rfl, ht, (hthis ⟨0⟩).2 rfl ▸ hlookup⟩

end Store

end ScriptEngine
