/-
Objects as maps that keep the order of creation. What is done to the properties
of an object is entered in a journal, and the object follows its journal: a key
has the value that was entered last, and the keys stand in the order in which
they were created, each once. Main statement: `Object.follows_journal`.
-/
import Std.Data.TreeMap.Lemmas
import ScriptEngine.Heap.Convert

namespace ScriptEngine

/-! ## Journals -/

/-- What was done to the properties of an object, latest first: a value was written to a key, or the
key was deleted. -/
abbrev Journal := List (String × Option Value)

namespace Journal

/-- The value that was written to a key last; none when the key is not there, or not any more. -/
def value? (key : String) : Journal → Option Value
  | [] => none
  | (k, v) :: earlier => if k = key then v else value? key earlier

/-- When a key that is there was created: so many entries are older. Later writes do not count. -/
def birth? (key : String) : Journal → Option Nat
  | [] => none
  | (k, v) :: earlier =>
    if k = key then v.map fun _ => (birth? key earlier).getD earlier.length else birth? key earlier

/-- Both keys are there, and the first is the older one. -/
def Before (j : Journal) (a b : String) : Prop :=
  ∃ m n, j.birth? a = some m ∧ j.birth? b = some n ∧ m < n

/-- The keys that are there: a write adds a new one at the end. -/
def keys : Journal → List String
  | [] => []
  | (k, some _) :: earlier => if k ∈ keys earlier then keys earlier else keys earlier ++ [k]
  | (k, none) :: earlier => (keys earlier).filter (· != k)

variable {j : Journal} {key : String}

theorem isSome_birth? : (j.birth? key).isSome = (j.value? key).isSome := by
  induction j with
  | nil => rfl
  | cons entry j ih =>
    simp only [birth?, value?]
    split
    · rw [Option.isSome_map]
    · exact ih

theorem birth?_lt {n : Nat} (h : j.birth? key = some n) : n < j.length := by
  induction j generalizing n with
  | nil => cases h
  | cons entry j ih =>
    simp only [birth?] at h
    split at h
    · obtain ⟨v, -, rfl⟩ := Option.map_eq_some_iff.1 h
      cases hb : birth? key j with
      | none => exact Nat.lt_succ_self _
      | some m => exact Nat.lt_succ_of_lt (ih hb)
    · exact Nat.lt_succ_of_lt (ih h)

theorem mem_keys : key ∈ j.keys ↔ (j.value? key).isSome = true := by
  induction j with
  | nil => simp [keys, value?]
  | cons entry j ih =>
    obtain ⟨k, v⟩ := entry
    by_cases hk : k = key
    · subst hk
      cases v <;> simp only [keys, value?] <;> grind
    · cases v <;> simp only [keys, value?, hk] <;> grind

theorem birth?_cons {k : String} {v : Option Value} {n : Nat} (h : j.birth? key = some n) (hv : k = key → v.isSome = true) :
    birth? key ((k, v) :: j) = some n := by
  simp only [birth?, h, Option.getD_some]
  split
  case isFalse => rfl
  case isTrue hk =>
    obtain ⟨w, hw⟩ := Option.isSome_iff_exists.1 (hv hk)
    rw [hw]
    rfl

theorem Before.cons {a b k : String} {v : Option Value} (h : j.Before a b) (ha : k = a → v.isSome = true)
    (hb : k = b → v.isSome = true) : Before ((k, v) :: j) a b := by
  obtain ⟨m, n, hm, hn, hlt⟩ := h
  exact ⟨m, n, birth?_cons hm ha, birth?_cons hn hb, hlt⟩

theorem pairwise_keys (j : Journal) : j.keys.Pairwise j.Before := by
  induction j with
  | nil => exact .nil
  | cons entry j ih =>
    obtain ⟨k, _ | v⟩ := entry
    · refine (ih.filter _).imp_of_mem fun ha hb hab => hab.cons (fun heq => ?_) fun heq => ?_
      · exact absurd heq.symm (bne_iff_ne.1 (List.mem_filter.1 ha).2)
      · exact absurd heq.symm (bne_iff_ne.1 (List.mem_filter.1 hb).2)
    · have hold : (keys j).Pairwise (Before ((k, some v) :: j)) :=
        ih.imp fun hab => hab.cons (fun _ => rfl) fun _ => rfl
      rw [keys]
      split
      case isTrue => exact hold
      case isFalse hk =>
        refine List.pairwise_append.2 ⟨hold, List.pairwise_singleton .., fun a ha b hb => ?_⟩
        cases List.mem_singleton.1 hb
        obtain ⟨n, hn⟩ := Option.isSome_iff_exists.1 (isSome_birth? ▸ mem_keys.1 ha)
        have hnew : birth? k j = none := by
          rwa [← Option.not_isSome_iff_eq_none, isSome_birth?, ← mem_keys]
        exact ⟨n, j.length, birth?_cons hn fun _ => rfl, by simp [birth?, hnew], birth?_lt hn⟩

theorem nodup_keys (j : Journal) : j.keys.Nodup :=
  (pairwise_keys j).imp fun hab heq => by
    obtain ⟨m, n, hm, hn, hlt⟩ := hab
    rw [heq, hn] at hm
    cases hm
    exact Nat.lt_irrefl _ hlt

end Journal

/-! ## Objects -/

namespace Object

def isLength (o : Object) (key : String) : Bool := o.objectClass == .array && key == "length"

/-- The object is what its journal says. Only the length of an array is hidden and stays. -/
structure Follows (o : Object) (j : Journal) : Prop where
  properties : ∀ key, o.properties[key]? = (j.value? key).map fun v => ⟨v, !o.isLength key, !o.isLength key⟩
  order : o.order.toList = j.keys
  length : o.objectClass = .array → (j.value? "length").isSome = true

theorem objectClass_put (o : Object) (key : String) (v : Value) : (o.put key v).objectClass = o.objectClass := by
  unfold put
  split <;> rfl

theorem get?_put (o : Object) (key : String) (v : Value) (key' : String) :
    (o.put key v).get? key' = if key = key' then some v else o.get? key' := by
  unfold put
  split
  all_goals
    simp only [get?, define, Std.TreeMap.getElem?_insert, Std.LawfulEqCmp.compare_eq_iff_eq]
    split <;> rfl

theorem get_put (o : Object) (key : String) (v : Value) (key' : String) :
    (o.put key v).get key' = if key = key' then v else o.get key' := by
  rw [get, get?_put]
  split <;> rfl

theorem objectClass_set (o : Object) (length : Float) (key : String) (v : Value) :
    (o.set length key v).objectClass = o.objectClass := by
  unfold set growLength
  split
  · rw [objectClass_put]
    split
    · split
      · exact objectClass_put ..
      · rfl
    · rfl
  · exact objectClass_put ..

theorem objectClass_erase (o : Object) (key : String) : (o.erase key).objectClass = o.objectClass := by
  unfold erase
  split <;> rfl

namespace Follows

variable {o : Object} {j : Journal} {key : String}

theorem get?_eq (h : o.Follows j) (key : String) : o.get? key = j.value? key := by
  rw [get?, h.properties, Option.map_map]
  exact Option.map_id'

theorem has_eq (h : o.Follows j) (key : String) : o.has key = (j.value? key).isSome := by
  rw [has, ← Std.TreeMap.isSome_getElem?_eq_contains, h.properties, Option.isSome_map]

theorem canDelete_eq (h : o.Follows j) (key : String) : o.canDelete key = (!o.isLength key || !o.has key) := by
  rw [canDelete, h.properties, h.has_eq]
  cases j.value? key <;> simp

theorem put (h : o.Follows j) (key : String) (v : Value) : (o.put key v).Follows ((key, some v) :: j) := by
  have hlength : o.objectClass = .array → (Journal.value? "length" ((key, some v) :: j)).isSome = true := fun hc => by
    rw [Journal.value?]
    split
    · rfl
    · exact h.length hc
  have hp := h.properties key
  unfold Object.put
  cases hkey : j.value? key with
  | some w =>
    simp only [hkey, Option.map_some] at hp
    simp only [hp]
    refine ⟨fun k => ?_, ?_, hlength⟩
    · simp only [Std.TreeMap.getElem?_insert, Std.LawfulEqCmp.compare_eq_iff_eq, Journal.value?]
      split
      case isTrue heq => exact heq ▸ rfl
      case isFalse => exact h.properties k
    · rw [Journal.keys, if_pos (Journal.mem_keys.2 (hkey ▸ rfl))]
      exact h.order
  | none =>
    -- The length of an array is always there, so it is not what is new.
    have hlength' : o.isLength key = false := Bool.eq_false_iff.2 fun hl => by
      obtain ⟨hc, rfl⟩ := by simpa [isLength] using hl
      simpa [hkey] using h.length hc
    simp only [hkey, Option.map_none] at hp
    simp only [hp]
    refine ⟨fun k => ?_, ?_, hlength⟩
    · simp only [define, Std.TreeMap.getElem?_insert, Std.LawfulEqCmp.compare_eq_iff_eq, Journal.value?]
      split
      case isTrue heq => simp only [← heq, Option.map_some, isLength] at hlength' ⊢; rw [hlength']; rfl
      case isFalse => exact h.properties k
    · rw [Journal.keys, if_neg (by simp [Journal.mem_keys, hkey]), ← h.order]
      exact Array.toList_push ..

theorem erase (h : o.Follows j) (hl : o.isLength key = false) : (o.erase key).Follows ((key, none) :: j) := by
  have hlength : o.objectClass = .array → (Journal.value? "length" ((key, none) :: j)).isSome = true := fun hc => by
    have hne : key ≠ "length" := fun heq => by simp [isLength, heq, hc] at hl
    rw [Journal.value?, if_neg hne]
    exact h.length hc
  unfold Object.erase
  rw [h.canDelete_eq, hl, Bool.not_false, Bool.true_or, Bool.and_true, h.has_eq]
  cases hkey : j.value? key with
  | some v =>
    refine ⟨fun k => ?_, ?_, hlength⟩
    · simp only [Option.isSome_some, if_true, Std.TreeMap.getElem?_erase, Std.LawfulEqCmp.compare_eq_iff_eq, Journal.value?]
      split
      · rfl
      · exact h.properties k
    · simp only [Option.isSome_some, if_true, Array.toList_filter, h.order]
      rfl
  | none =>
    refine ⟨fun k => ?_, ?_, hlength⟩
    · simp only [Option.isSome_none, Bool.false_eq_true, if_false, Journal.value?]
      split
      case isTrue heq => rw [h.properties, ← heq, hkey]
      case isFalse => exact h.properties k
    · refine h.order.trans (List.filter_eq_self.2 fun k hk => bne_iff_ne.2 fun heq => ?_).symm
      simpa [heq, hkey] using Journal.mem_keys.1 hk

end Follows

end Object

/-! ## Changes -/

/-- Something that is done to the properties of an object. What number the length of an array stands for
is a matter of the store in which it is written to. -/
inductive Change
  | set (store : Store) (key : String) (v : Value)
  | delete (key : String)

def Change.apply (o : Object) : Change → Object
  | .set store key v => o.set (store.toNumber (o.get "length")) key v
  | .delete key => o.erase key

/-- The length that a write to the key gives to an array which has no room for it. -/
def Journal.growth? (j : Journal) (store : Store) (key : String) : Option Value := do
  let i ← arrayIndex? key
  let length ← j.value? "length"
  if Number.ofWord i ≥ store.toNumber length then some (.number (Number.ofWord i + 1.0)) else none

/-- The journal after the change. An array may have to grow before it is written to, and its length is
not deleted. -/
def Change.enter (c : ObjectClass) (j : Journal) : Change → Journal
  | .set store key v =>
    let growth := if c = .array then j.growth? store key else none
    (key, some v) :: (growth.toList.map fun length => ("length", some length)) ++ j
  | .delete key => if c = .array ∧ key = "length" then j else (key, none) :: j

inductive Beginning
  | plain
  | array (length : Nat)
  | error (name message : String)

namespace Beginning

def object : Beginning → Object
  | .plain => .empty
  | .array length => .array length
  | .error name message => .error name message

def journal : Beginning → Journal
  | .plain => []
  | .array length => [("length", some (.number (Number.ofWord length)))]
  | .error name message => [("message", some (.string message)), ("name", some (.string name))]

end Beginning

namespace Object

theorem objectClass_apply (o : Object) (change : Change) : (change.apply o).objectClass = o.objectClass := by
  cases change with
  | set => exact objectClass_set ..
  | delete => exact objectClass_erase ..

theorem follows_beginning (b : Beginning) : b.object.Follows b.journal := by
  have hempty : ∀ c ≠ ObjectClass.array, (ofClass c).Follows [] := fun c hc =>
    ⟨fun _ => by simp [ofClass, Journal.value?], rfl, fun h => absurd h hc⟩
  cases b with
  | plain => exact hempty .object (by decide)
  | error name message => exact ((hempty .error (by decide)).put "name" _).put "message" _
  | array length =>
    refine ⟨fun key => ?_, rfl, fun _ => rfl⟩
    simp only [Beginning.object, Object.array, define, ofClass, Std.TreeMap.getElem?_insert,
      Std.LawfulEqCmp.compare_eq_iff_eq, Beginning.journal, Journal.value?]
    split
    case isTrue heq => simp [isLength, ← heq]
    case isFalse => simp

namespace Follows

variable {o : Object} {j : Journal}

/-- **What one change does.** -/
theorem apply (h : o.Follows j) (change : Change) : (change.apply o).Follows (change.enter o.objectClass j) := by
  cases change with
  | delete key =>
    simp only [Change.apply, Change.enter]
    split
    case isFalse hl => exact h.erase (by simpa [isLength] using hl)
    case isTrue hl =>
      obtain ⟨hc, rfl⟩ := hl
      have hstays : o.canDelete "length" = false := by simp [h.canDelete_eq, h.has_eq, isLength, hc, h.length hc]
      rwa [Object.erase, hstays, Bool.and_false]
  | set store key v =>
    simp only [Change.apply, Change.enter, Object.set]
    by_cases hc : o.objectClass = .array
    · rw [if_pos (by simp [hc]), if_pos hc]
      refine Follows.put ?_ key v
      obtain ⟨length, hlength⟩ := Option.isSome_iff_exists.1 (h.length hc)
      simp only [growLength, Journal.growth?, Object.get, h.get?_eq, h.has_eq, hlength, Option.isSome_some, Bool.and_true,
        decide_eq_true_eq, Option.getD_some, bind, Option.bind]
      cases arrayIndex? key with
      | none => exact h
      | some i =>
        dsimp only
        split
        · exact h.put "length" _
        · exact h
    · rw [if_neg (by simp [hc]), if_neg hc]
      exact h.put key v

/-- **An object follows its journal whatever is done to it.** -/
theorem foldl (h : o.Follows j) (changes : List Change) :
    (changes.foldl Change.apply o).Follows (changes.foldl (Change.enter o.objectClass) j) := by
  induction changes generalizing o j with
  | nil => exact h
  | cons change changes ih =>
    have hrest := ih (h.apply change)
    rwa [objectClass_apply] at hrest

theorem mem_order (h : o.Follows j) (key : String) : key ∈ o.order ↔ key ∈ o.properties := by
  rw [← Array.mem_toList_iff, h.order, Journal.mem_keys, ← h.has_eq]
  exact Std.TreeMap.contains_iff_mem

theorem mem_enumerableKeys (h : o.Follows j) (key : String) :
    key ∈ o.enumerableKeys ↔ (j.value? key).isSome = true ∧ o.isLength key = false := by
  rw [enumerableKeys, List.mem_filter, h.order, Journal.mem_keys, h.properties]
  cases j.value? key <;> simp

end Follows

/-- **Objects are maps in the order of creation.** After any changes the order lists the keys of the
properties and nothing else, each once; a key has the value that was written to it last since it was created;
loops visit the keys that are there in the order of their creation, except for the length of an array, which is
always there and cannot be deleted. -/
theorem follows_journal (b : Beginning) (changes : List Change) :
    let o := changes.foldl Change.apply b.object
    let j := changes.foldl (Change.enter b.object.objectClass) b.journal
    o.order.toList.Nodup ∧ (∀ key, key ∈ o.order ↔ key ∈ o.properties) ∧ (∀ key, o.get? key = j.value? key) ∧
      (∀ key, o.has key = (j.value? key).isSome) ∧ o.enumerableKeys.Pairwise j.Before ∧
      (∀ key, key ∈ o.enumerableKeys ↔ (j.value? key).isSome = true ∧ o.isLength key = false) ∧
      (∀ key, o.isLength key = true → o.has key = true ∧ o.canDelete key = false ∧ o.erase key = o) := by
  intro o j
  have h : o.Follows j := (follows_beginning b).foldl changes
  refine ⟨h.order ▸ j.nodup_keys, h.mem_order, h.get?_eq, h.has_eq, ?_, h.mem_enumerableKeys, fun key hl => ?_⟩
  · rw [enumerableKeys, h.order]
    exact j.pairwise_keys.filter _
  · have hthere : o.has key = true := by
      obtain ⟨hc, rfl⟩ := by simpa [isLength] using hl
      rw [h.has_eq, h.length hc]
    have hstays : o.canDelete key = false := by rw [h.canDelete_eq, hl, hthere]; rfl
    exact ⟨hthere, hstays, by rw [erase, hstays, Bool.and_false]; rfl⟩

end Object

end ScriptEngine
