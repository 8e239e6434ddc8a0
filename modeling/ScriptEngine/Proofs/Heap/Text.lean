/-
Texts of values. The text of an object is made of the texts of what it holds,
so a value has a text when the objects in it do not nest without end. Main
statement: `shows_iff`, the bound on nesting that the number of objects gives is
never too small for such a value.
-/
import ScriptEngine.Heap.Convert
import Mathlib.Data.Finset.Card
import Mathlib.Order.Monotone.Basic

namespace ScriptEngine.Store

variable {text text' : Value → String} {v : Value} {n m : Nat} {r : ObjectRef}

/-! ## What texts are made of -/

/-- The values whose texts the text of an object is made of. How many elements of an array count depends on
its length, so on a text when the length is an object. -/
def textParts (text : Value → String) (o : Object) : List Value :=
  match o.objectClass with
  | .object => []
  | .array =>
    o.get "length" :: ((List.range (elementCount (numberOf text (o.get "length")))).map fun i => o.get (toString i))
  | .error => [o.get "name", o.get "message"]

/-- The value is shown as the text, and the objects in it come to an end. -/
inductive Shows (s : Store) : Value → String → Prop
  | flat {v : Value} : (∀ r, v ≠ .object r) → Shows s v (s.text v)
  | object {r : ObjectRef} {text : Value → String} :
      (∀ v ∈ textParts text (s.object r), Shows s v (text v)) → Shows s (.object r) (objectText text (s.object r))

theorem numberOf_congr (h : text v = text' v) : numberOf text v = numberOf text' v := by
  cases v <;> simp only [numberOf, h]

theorem textParts_congr {o : Object} (h : ∀ v ∈ textParts text o, text v = text' v) :
    textParts text' o = textParts text o := by
  unfold textParts at h ⊢
  split
  · rfl
  · rename_i hclass
    simp only [hclass] at h
    rw [numberOf_congr (h (o.get "length") (List.mem_cons_self ..))]
  · rfl

theorem objectText_congr {o : Object} (h : ∀ v ∈ textParts text o, text v = text' v) :
    objectText text' o = objectText text o := by
  unfold textParts at h
  unfold objectText
  split
  · rfl
  · rename_i hclass
    simp only [hclass] at h
    simp only [← numberOf_congr (h (o.get "length") (List.mem_cons_self ..))]
    congr 1
    refine List.map_congr_left fun i hi => ?_
    rw [h (o.get (toString i)) (List.mem_cons_of_mem _ (List.mem_map_of_mem hi))]
  · rename_i hclass
    simp only [hclass] at h
    simp only [h (o.get "name") (by simp), h (o.get "message") (by simp)]

/-! ## A bound on nesting -/

def NestsWithin (s : Store) : Nat → Value → Prop
  | 0, .object _ => False
  | n + 1, .object r => ∀ v ∈ textParts (s.textWithin n) (s.object r), s.NestsWithin n v
  | _, _ => True

instance decidableNestsWithin (s : Store) : ∀ n v, Decidable (s.NestsWithin n v)
  | 0, .object _ => .isFalse id
  | n + 1, .object r =>
    have := decidableNestsWithin s n
    inferInstanceAs (Decidable (∀ v ∈ textParts (s.textWithin n) (s.object r), s.NestsWithin n v))
  | n, .undefined | n, .null | n, .boolean _ | n, .number _ | n, .string _ | n, .function _ =>
    .isTrue (by cases n <;> trivial)

variable {s : Store}

theorem nestsWithin_flat (h : ∀ r, v ≠ .object r) (n : Nat) : s.NestsWithin n v := by
  cases v with
  | object r => exact (h r rfl).elim
  | _ => cases n <;> trivial

theorem NestsWithin.succ (h : s.NestsWithin n v) : s.NestsWithin (n + 1) v ∧ s.textWithin (n + 1) v = s.textWithin n v := by
  induction n generalizing v with
  | zero =>
    cases v with
    | object r => exact h.elim
    | _ => exact ⟨trivial, by simp only [textWithin]⟩
  | succ n ih =>
    cases v with
    | object r =>
      have htexts : ∀ v ∈ textParts (s.textWithin n) (s.object r), s.textWithin n v = s.textWithin (n + 1) v :=
        fun v hv => (ih (h v hv)).2.symm
      refine ⟨fun v hv => ?_, ?_⟩
      · rw [textParts_congr htexts] at hv
        exact (ih (h v hv)).1
      · simp only [textWithin]
        exact objectText_congr htexts
    | _ => exact ⟨trivial, by simp only [textWithin]⟩

theorem NestsWithin.mono (h : s.NestsWithin n v) (hm : n ≤ m) : s.NestsWithin m v ∧ s.textWithin m v = s.textWithin n v := by
  induction hm with
  | refl => exact ⟨h, rfl⟩
  | step _ ih => exact ⟨ih.1.succ.1, ih.1.succ.2.trans ih.2⟩

/-! ## The number of objects is a bound -/

theorem nestsWithin_of_size_le (h : s.objects.size ≤ r.index) (n : Nat) : s.NestsWithin (n + 1) (.object r) := by
  have hobject : s.object r = default := by simp [object, Array.getD_eq_getD_getElem?, Array.getElem?_eq_none h]
  simp only [NestsWithin, hobject]
  intro v hv
  cases hv

theorem nestsWithin_stable (h : ∀ r, s.NestsWithin (n + 1) (.object r) → s.NestsWithin n (.object r))
    (hr : s.NestsWithin (n + 2) (.object r)) :
    s.NestsWithin (n + 1) (.object r) := by
  have hparts : ∀ v ∈ textParts (s.textWithin (n + 1)) (s.object r), s.NestsWithin n v := by
    intro v hv
    have hnests := hr v hv
    cases v with
    | object r' => exact h r' hnests
    | _ => exact nestsWithin_flat (by simp) n
  intro v hv
  rw [textParts_congr fun v hv => (hparts v hv).succ.2] at hv
  exact hparts v hv

/-- The objects of the store that nest within a bound. -/
def nesting (s : Store) (n : Nat) : Finset Nat :=
  (Finset.range s.objects.size).filter fun i => s.NestsWithin n (.object ⟨i⟩)

theorem mem_nesting {i : Nat} : i ∈ s.nesting n ↔ i < s.objects.size ∧ s.NestsWithin n (.object ⟨i⟩) := by
  simp [nesting]

theorem nesting_mono (h : n ≤ m) : s.nesting n ⊆ s.nesting m := fun _ hi =>
  have hi := mem_nesting.1 hi
  mem_nesting.2 ⟨hi.1, (hi.2.mono h).1⟩

theorem nestsWithin_of_card (hnm : n ≤ m) (hcard : (s.nesting (n + 1)).card = (s.nesting (m + 1)).card)
    (hr : s.NestsWithin (m + 1) (.object r)) :
    s.NestsWithin (n + 1) (.object r) := by
  have heq : s.nesting (n + 1) = s.nesting (m + 1) :=
    Finset.eq_of_subset_of_card_le (nesting_mono (Nat.succ_le_succ hnm)) (Nat.le_of_eq hcard.symm)
  by_cases hsize : r.index < s.objects.size
  · have hmem : r.index ∈ s.nesting (m + 1) := mem_nesting.2 ⟨hsize, hr⟩
    exact (mem_nesting.1 (heq ▸ hmem)).2
  · exact nestsWithin_of_size_le (Nat.le_of_not_lt hsize) n

theorem card_nesting (h : s.objects.size ≤ n) : (s.nesting (n + 1)).card = (s.nesting (s.objects.size + 1)).card := by
  refine Nat.stabilises_of_monotone (f := fun n => (s.nesting (n + 1)).card) ?_ ?_ ?_ h
  · exact fun n m h => Finset.card_le_card (nesting_mono (Nat.succ_le_succ h))
  · intro n
    have hsub : s.nesting (n + 1) ⊆ Finset.range s.objects.size := fun _ hi => Finset.mem_range.2 (mem_nesting.1 hi).1
    simpa using Finset.card_le_card hsub
  · intro n hn
    have hstable := fun r => nestsWithin_stable (s := s) (n := n + 1) (r := r)
      fun r => nestsWithin_of_card (Nat.le_succ n) hn
    refine congrArg Finset.card (Finset.Subset.antisymm (nesting_mono (Nat.le_succ _)) fun i hi => ?_)
    exact mem_nesting.2 ⟨(mem_nesting.1 hi).1, hstable ⟨i⟩ (mem_nesting.1 hi).2⟩

theorem NestsWithin.of_size (h : s.NestsWithin n v) : s.NestsWithin (s.objects.size + 1) v := by
  rcases Nat.le_total n (s.objects.size + 1) with hn | hn
  · exact (h.mono hn).1
  · cases v with
    | object r =>
      obtain ⟨n, rfl⟩ : ∃ k, n = k + 1 := ⟨n - 1, by omega⟩
      have hn := Nat.le_of_succ_le_succ hn
      exact nestsWithin_of_card hn (card_nesting hn).symm h
    | _ => exact nestsWithin_flat (by simp) _

/-! ## Values that are shown -/

theorem exists_bound {l : List Value} (h : ∀ v ∈ l, ∃ n, s.NestsWithin n v ∧ s.textWithin n v = text v) :
    ∃ n, ∀ v ∈ l, s.NestsWithin n v ∧ s.textWithin n v = text v := by
  induction l with
  | nil => exact ⟨0, by simp⟩
  | cons v l ih =>
    obtain ⟨hv, hl⟩ := List.forall_mem_cons.1 h
    obtain ⟨n, hn, htext⟩ := hv
    obtain ⟨m, hm⟩ := ih hl
    have left := hn.mono (Nat.le_max_left n m)
    refine ⟨max n m, List.forall_mem_cons.2 ⟨⟨left.1, left.2.trans htext⟩, fun w hw => ?_⟩⟩
    have right := (hm w hw).1.mono (Nat.le_max_right n m)
    exact ⟨right.1, right.2.trans (hm w hw).2⟩

theorem Shows.nests {t : String} (h : s.Shows v t) : ∃ n, s.NestsWithin n v ∧ s.textWithin n v = t := by
  induction h with
  | flat hv => exact ⟨_, nestsWithin_flat hv _, rfl⟩
  | @object r text _ ih =>
    obtain ⟨n, hn⟩ := exists_bound ih
    have htexts : ∀ v ∈ textParts text (s.object r), text v = s.textWithin n v := fun v hv => (hn v hv).2.symm
    refine ⟨n + 1, fun v hv => ?_, ?_⟩
    · rw [textParts_congr htexts] at hv
      exact (hn v hv).1
    · simp only [textWithin]
      exact objectText_congr htexts

theorem NestsWithin.shows (h : s.NestsWithin n v) : s.Shows v (s.textWithin n v) := by
  induction n generalizing v with
  | zero =>
    cases v with
    | object r => exact h.elim
    | _ => exact .flat (by simp)
  | succ n ih =>
    cases v with
    | object r =>
      simp only [textWithin]
      exact .object fun v hv => ih (h v hv)
    | _ => exact .flat (by simp)

theorem shows_iff {t : String} : s.Shows v t ↔ s.NestsWithin (s.objects.size + 1) v ∧ s.text v = t := by
  constructor
  · intro h
    obtain ⟨n, hn, rfl⟩ := h.nests
    refine ⟨hn.of_size, ?_⟩
    rcases Nat.le_total n (s.objects.size + 1) with hle | hle
    · exact (hn.mono hle).2
    · exact (hn.of_size.mono hle).2.symm
  · rintro ⟨hn, rfl⟩
    exact hn.shows

end ScriptEngine.Store
