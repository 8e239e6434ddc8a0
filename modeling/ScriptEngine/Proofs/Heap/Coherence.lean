/-
Equality and order with conversions do not depend on the side a value stands
on. Equality is given by rules that convert one side at a time, in another order
from each side; `looseEquals` converts both at once. Main statement:
`looseEquals_coherent`.
-/
import ScriptEngine.Proofs.Heap.Text
import ScriptEngine.Proofs.Number.Double
import Mathlib.Data.String.Basic

namespace ScriptEngine

namespace Value

def isBoolean : Value → Bool
  | .boolean _ => true
  | _ => false

def isScalar : Value → Bool
  | .number _ | .string _ => true
  | _ => false

theorem kinds {v : Value} (h : v.isBoolean = false) : v.isNullish = true ∨ v.isScalar = true ∨ v.isObject = true := by
  cases v <;> first | cases h; done | simp [isNullish, isScalar, isObject]

theorem strictEquals_comm (a b : Value) : a.strictEquals b = b.strictEquals a := by
  cases a <;> cases b <;> first
    | exact Number.beq_comm _ _
    | exact Bool.beq_comm
    | rfl

theorem flatEquals_comm (a b : Value) : a.flatEquals b = b.flatEquals a := by
  cases a <;> cases b <;> first
    | exact Number.beq_comm _ _
    | exact Bool.beq_comm
    | rfl

end Value

namespace Store

/-! ## The rules of equality -/

/-- The answers of the rules. Values of one kind compare as they are. Then, where several rules apply, a
boolean becomes a number first, and an object becomes a text last. -/
inductive Equates (s : Store) : Value → Value → Bool → Prop
  | undefined : Equates s .undefined .undefined true
  | null : Equates s .null .null true
  | boolean (b c : Bool) : Equates s (.boolean b) (.boolean c) (b == c)
  | number (x y : Float) : Equates s (.number x) (.number y) (x == y)
  | string (t u : String) : Equates s (.string t) (.string u) (t == u)
  | object (r q : ObjectRef) : Equates s (.object r) (.object q) (r == q)
  | function (f g : FunctionRef) : Equates s (.function f) (.function g) (f == g)
  | nullUndefined : Equates s .null .undefined true
  | undefinedNull : Equates s .undefined .null true
  | numberString (x : Float) (t : String) : Equates s (.number x) (.string t) (x == Number.ofText t)
  | stringNumber (t : String) (x : Float) : Equates s (.string t) (.number x) (Number.ofText t == x)
  | booleanLeft {b : Bool} {v : Value} {answer : Bool} : v.isBoolean = false →
      Equates s (.number (s.toNumber (.boolean b))) v answer → Equates s (.boolean b) v answer
  | booleanRight {v : Value} {b : Bool} {answer : Bool} : v.isBoolean = false →
      Equates s v (.number (s.toNumber (.boolean b))) answer → Equates s v (.boolean b) answer
  | objectRight {v o : Value} {t : String} {answer : Bool} : v.isScalar = true → o.isObject = true → s.Shows o t →
      Equates s v (.string t) answer → Equates s v o answer
  | objectLeft {o v : Value} {t : String} {answer : Bool} : o.isObject = true → v.isScalar = true → s.Shows o t →
      Equates s (.string t) v answer → Equates s o v answer
  | nullishLeft {v w : Value} : v.isNullish = true → (w.isScalar || w.isObject) = true → Equates s v w false
  | nullishRight {v w : Value} : (v.isScalar || v.isObject) = true → w.isNullish = true → Equates s v w false
  | objectFunction (r : ObjectRef) (f : FunctionRef) : Equates s (.object r) (.function f) false
  | functionObject (f : FunctionRef) (r : ObjectRef) : Equates s (.function f) (.object r) false

variable {s : Store}

theorem boolean_beq (b c : Bool) : ((if b then 1.0 else 0.0 : Float) == if c then 1.0 else 0.0) = (b == c) := by
  revert b c
  decide

theorem Equates.answer {a b : Value} {answer : Bool} (h : s.Equates a b answer) : answer = s.looseEquals a b := by
  induction h with
  | boolean b c => exact (boolean_beq b c).symm
  | booleanLeft _ _ ih => exact ih
  | booleanRight _ _ ih => exact ih
  | @objectRight v o t _ hv ho ht _ ih =>
    obtain ⟨-, rfl⟩ := shows_iff.1 ht
    rw [ih]
    cases v <;> cases hv <;> cases o <;> cases ho <;> rfl
  | @objectLeft o v t _ ho hv ht _ ih =>
    obtain ⟨-, rfl⟩ := shows_iff.1 ht
    rw [ih]
    cases v <;> cases hv <;> cases o <;> cases ho <;> rfl
  | @nullishLeft v w hv hw => cases v <;> cases hv <;> cases w <;> first | cases hw; done | rfl
  | @nullishRight v w hv hw => cases w <;> cases hw <;> cases v <;> first | cases hv; done | rfl
  | _ => rfl

/-! Each conversion leaves fewer booleans or objects, so the rules come to an end. -/

theorem equates_scalars {a b : Value} (ha : a.isScalar = true) (hb : b.isScalar = true) : ∃ answer, s.Equates a b answer := by
  cases a <;> cases ha <;> cases b <;> cases hb
  · exact ⟨_, .number _ _⟩
  · exact ⟨_, .numberString _ _⟩
  · exact ⟨_, .stringNumber _ _⟩
  · exact ⟨_, .string _ _⟩

theorem equates_objects {a b : Value} (ha : a.isObject = true) (hb : b.isObject = true) : ∃ answer, s.Equates a b answer := by
  cases a <;> cases ha <;> cases b <;> cases hb
  · exact ⟨_, .object _ _⟩
  · exact ⟨_, .objectFunction _ _⟩
  · exact ⟨_, .functionObject _ _⟩
  · exact ⟨_, .function _ _⟩

theorem equates_nullish {a b : Value} (ha : a.isNullish = true) (hb : b.isNullish = true) : ∃ answer, s.Equates a b answer := by
  cases a <;> cases ha <;> cases b <;> cases hb
  · exact ⟨_, .undefined⟩
  · exact ⟨_, .undefinedNull⟩
  · exact ⟨_, .nullUndefined⟩
  · exact ⟨_, .null⟩

theorem equates_unboolean {a b : Value} (ha : a.isBoolean = false) (hb : b.isBoolean = false)
    (hta : ∃ t, s.Shows a t) (htb : ∃ t, s.Shows b t) : ∃ answer, s.Equates a b answer := by
  rcases Value.kinds ha with hna | hsa | hoa <;> rcases Value.kinds hb with hnb | hsb | hob
  · exact equates_nullish hna hnb
  · exact ⟨_, .nullishLeft hna (by simp [hsb])⟩
  · exact ⟨_, .nullishLeft hna (by simp [hob])⟩
  · exact ⟨_, .nullishRight (by simp [hsa]) hnb⟩
  · exact equates_scalars hsa hsb
  · obtain ⟨t, ht⟩ := htb
    obtain ⟨answer, h⟩ := equates_scalars (s := s) (b := .string t) hsa rfl
    exact ⟨answer, .objectRight hsa hob ht h⟩
  · exact ⟨_, .nullishRight (by simp [hoa]) hnb⟩
  · obtain ⟨t, ht⟩ := hta
    obtain ⟨answer, h⟩ := equates_scalars (s := s) (a := .string t) rfl hsb
    exact ⟨answer, .objectLeft hoa hsb ht h⟩
  · exact equates_objects hoa hob

theorem exists_equates {a b : Value} (ha : ∃ t, s.Shows a t) (hb : ∃ t, s.Shows b t) : ∃ answer, s.Equates a b answer := by
  have number : ∀ x : Float, ∃ t, s.Shows (.number x) t := fun x => ⟨_, .flat (by simp)⟩
  cases a with
  | boolean c =>
    cases b with
    | boolean d => exact ⟨_, .boolean c d⟩
    | _ =>
      obtain ⟨answer, h⟩ := equates_unboolean rfl rfl (number (s.toNumber (.boolean c))) hb
      exact ⟨answer, .booleanLeft rfl h⟩
  | _ =>
    cases b with
    | boolean d =>
      obtain ⟨answer, h⟩ := equates_unboolean rfl rfl ha (number (s.toNumber (.boolean d)))
      exact ⟨answer, .booleanRight rfl h⟩
    | _ => exact equates_unboolean rfl rfl ha hb

/-! ## Both sides -/

theorem looseEquals_comm (a b : Value) : s.looseEquals a b = s.looseEquals b a := by
  simp only [looseEquals, Bool.and_comm b.unboolean.isObject, Value.strictEquals_comm b.unboolean,
    Value.flatEquals_comm (s.primitive b.unboolean)]

theorem looseEquals_of_strictEquals {a b : Value} (h : a.strictEquals b = true) : s.looseEquals a b = true := by
  cases a <;> cases b <;> first
    | cases h; done
    | exact h
    | exact (boolean_beq _ _).trans h

theorem compare_string_swap (t u : String) : (compareOfLessAndEq t u).swap = compareOfLessAndEq u t := by
  rcases lt_trichotomy t u with h | rfl | h
  · simp [compareOfLessAndEq, h, h.not_gt, h.ne']
  · simp [compareOfLessAndEq]
  · simp [compareOfLessAndEq, h, h.not_gt, h.ne']

theorem compare_swap (a b : Value) : (s.compare a b).map Ordering.swap = s.compare b a := by
  unfold compare
  generalize s.primitive a = v
  generalize s.primitive b = w
  cases v <;> cases w <;> first
    | exact congrArg some (compare_string_swap _ _)
    | exact Number.compareNumbers_swap _ _

/-- What two values come to when they are compared, from both sides. -/
structure Coherent (s : Store) (a b : Value) : Prop where
  /-- Where the objects in both values come to an end, the rules do too. -/
  ends : (∃ t, s.Shows a t) → (∃ t, s.Shows b t) → s.Equates a b (s.looseEquals a b)
  unique : ∀ answer, s.Equates a b answer → answer = s.looseEquals a b
  symmetric : s.looseEquals a b = s.looseEquals b a
  ofStrict : a.strictEquals b = true → s.looseEquals a b = true
  reversed : (s.compare a b).map Ordering.swap = s.compare b a

/-- **Comparing is coherent.** In every store the rules of equality give one answer for two values, and they
give it if the texts of the values are finite, as the texts in use then are. Equality with conversions is
symmetric and follows from strict equality, and the order of two values is the reverse of their order from the
other side, if there is one. -/
theorem looseEquals_coherent (s : Store) :
    (∀ v t, s.Shows v t → s.text v = t) ∧ ∀ a b, s.Coherent a b :=
  ⟨fun _ _ h => (shows_iff.1 h).2, fun a b =>
    { ends := fun ha hb => by
        obtain ⟨answer, h⟩ := exists_equates ha hb
        exact h.answer ▸ h
      unique := fun _ h => h.answer
      symmetric := looseEquals_comm a b
      ofStrict := looseEquals_of_strictEquals
      reversed := compare_swap a b }⟩

end Store

end ScriptEngine
