/-
Runs of the machine as a relation. A run counts its steps and passes through
sound states only: there is a next instruction, it raises nothing internal, and
a slot that it names is where a search for the variable's name would end.
-/
import ScriptEngine.Machine.Run
import ScriptEngine.Proofs.Machine.Outline
import ScriptEngine.Proofs.Scope.Environment

namespace ScriptEngine

namespace Frame

/-! ## Temporaries and keys -/

theorem getD_extend (ts : Array Value) (n j : Nat) : (extend ts n).getD j .undefined = ts.getD j .undefined := by
  simp only [extend, Array.getD_eq_getD_getElem?, Array.getElem?_append]
  split
  · rfl
  · rename_i h
    rw [Array.getElem?_replicate, Array.getElem?_eq_none (Nat.le_of_not_lt h)]
    split <;> rfl

theorem temporary_setTemporary (f : Frame) (i j : Nat) (v : Value) :
    (f.setTemporary i v).temporary j = if j = i then v else f.temporary j := by
  simp only [temporary, setTemporary, Array.getD_eq_getD_getElem?, Array.getElem?_setIfInBounds]
  by_cases h : j = i
  · have hi : i < (extend f.temporaries (i + 1)).size := by
      simp only [extend, Array.size_append, Array.size_replicate]
      omega
    rw [if_pos h.symm, if_pos hi, if_pos h]
    rfl
  · rw [if_neg (Ne.symm h), if_neg h, ← Array.getD_eq_getD_getElem?, getD_extend, Array.getD_eq_getD_getElem?]

theorem lookup_filter_ne {i j : Nat} (h : j ≠ i) (ks : List (Nat × List String)) :
    (ks.filter fun k => k.1 != i).lookup j = ks.lookup j := by
  induction ks with
  | nil => rfl
  | cons k ks ih =>
    obtain ⟨k, v⟩ := k
    by_cases hk : k = i
    · have hj : (j == i) = false := by simp [h]
      simp [hk, ih, List.lookup_cons, hj]
    · simp only [List.filter_cons, bne_iff_ne, ne_eq, hk, not_false_eq_true, if_true, List.lookup_cons, ih]

theorem keysOf_setKeys (f : Frame) (i j : Nat) (keys : List String) :
    (f.setKeys i keys).keysOf j = if j = i then keys else f.keysOf j := by
  simp only [keysOf, setKeys, List.lookup_cons]
  by_cases h : j = i
  · simp [h]
  · have hj : (j == i) = false := by simp [h]
    simp [h, hj, lookup_filter_ne h]

end Frame

namespace Machine

/-- The instruction that the running frame stands at. -/
def next? (m : Machine) : Option Instruction := m.frame.code.instructions[m.frame.position]?

/-- What the instruction runs in: the position is already behind it. -/
def activity (m : Machine) : Activity := ⟨m.realm, { m.frame with position := m.frame.position + 1 }⟩

def named? (m : Machine) : Option (Opcode × String) :=
  match m.next? with
  | some ⟨op, some (.property k)⟩ =>
    match m.frame.code.constants[k]? with
    | some (.string name) => some (op, name)
    | _ => none
  | _ => none

/-- The variable that the slot of the next instruction was chosen for. -/
def noted? (m : Machine) : Option (Opcode × String) :=
  m.next?.bind fun i => m.frame.code.slotNames[m.frame.position]?.map fun name => (i.opcode, name)

def Raises (m : Machine) (e : Raised) : Prop := ∃ i a, m.next? = some i ∧ i.exec m.activity = .error e a

/-- The next instruction finds a fault and leaves everything as it is. -/
def Fails (m : Machine) (f : Fault) : Prop :=
  ∃ i a, m.next? = some i ∧ i.exec m.activity = .error (.fault f) a ∧ a.realm = m.realm

/-- A slot instruction that comes next has the slot of the variable it was written for. -/
def SlotsAgree (m : Machine) : Prop :=
  ∀ op depth index, (op = .loadSlot ∨ op = .storeSlot) → m.next? = some ⟨op, some (.slot depth index)⟩ →
    ∃ name r, m.frame.code.slotNames[m.frame.position]? = some name ∧
      m.realm.store.SlotOf m.frame.scope name depth index r

/-- What lowering had in mind with the instruction that comes next is so: the variable of a slot is
where its name is found, also when it is to be deleted, only sloppy code makes variables by
assigning, and functions in strict code are strict. -/
structure Agrees (m : Machine) : Prop where
  slots : m.SlotsAgree
  deletes : ∀ name, m.next? = some ⟨.loadFalse, none⟩ → m.frame.code.slotNames[m.frame.position]? = some name →
    ∃ depth index r, m.realm.store.SlotOf m.frame.scope name depth index r
  stores : ∀ operand, m.next? = some ⟨.storeName, operand⟩ → m.frame.code.strict = false
  closures : ∀ k u, m.next? = some ⟨.closure, some (.function k)⟩ → m.frame.code.functions[k]? = some u →
    m.frame.code.strict = true → u.strict = true

structure Sound (m : Machine) : Prop where
  next : ∃ i, m.next? = some i
  visible : ∀ e, m.Raises e → e.Visible
  agrees : m.Agrees

theorem Sound.slots {m : Machine} (h : m.Sound) : m.SlotsAgree := h.agrees.slots

theorem named?_eq_some {m : Machine} {op : Opcode} {name : String} : m.named? = some (op, name) ↔
    ∃ k, m.next? = some ⟨op, some (.property k)⟩ ∧ m.frame.code.constants[k]? = some (.string name) := by
  constructor
  · intro h
    unfold named? at h
    split at h
    next hi =>
      split at h
      next hk =>
        cases h
        exact ⟨_, hi, hk⟩
      · cases h
    · cases h
  · rintro ⟨k, hi, hk⟩
    simp only [named?, hi, hk]

theorem noted?_eq_some {m : Machine} {op : Opcode} {name : String} (h : m.noted? = some (op, name)) :
    (∃ operand, m.next? = some ⟨op, operand⟩) ∧ m.frame.code.slotNames[m.frame.position]? = some name := by
  simp only [noted?, Option.bind_eq_some_iff, Option.map_eq_some_iff, Prod.mk.injEq] at h
  obtain ⟨i, hi, name', hname, rfl, rfl⟩ := h
  exact ⟨⟨i.operand, hi⟩, hname⟩

theorem step_eq {m : Machine} {i : Instruction} (h : m.next? = some i) :
    m.step = match i.exec m.activity with
      | .ok .proceed a => .run ⟨a.realm, a.frame, m.callers⟩
      | .ok (.leave v) a => deliver a.realm a.frame.purpose v m.callers
      | .ok (.enter f) a => .run ⟨a.realm, f, a.frame :: m.callers⟩
      | .error e a => unwind e a.realm a.frame m.callers := by
  obtain ⟨realm, frame, callers⟩ := m
  rw [next?] at h
  simp only [step, h, activity]
  cases i.exec ⟨realm, { frame with position := frame.position + 1 }⟩ with
  | error e a => rfl
  | ok n a => cases n <;> rfl

end Machine

/-- So many sound steps lead from one configuration to another. -/
inductive Reaches : Nat → Step → Step → Prop
  | refl : Reaches 0 s s
  | step : m.Sound → Reaches n m.step s → Reaches (n + 1) (.run m) s

namespace Reaches

theorem one {m : Machine} (h : m.Sound) : Reaches 1 (.run m) m.step := .step h .refl

theorem trans {s t u : Step} {j k : Nat} (h : Reaches j s t) (h' : Reaches k t u) : Reaches (j + k) s u := by
  induction h with
  | refl => rwa [Nat.zero_add]
  | step hm _ ih =>
    rw [Nat.add_right_comm]
    exact .step hm (ih h')

end Reaches

/-! ## Counting steps -/

namespace Step

/-- The configuration after so many steps; a run that is over stays over. -/
def after : Nat → Step → Step
  | 0, s => s
  | n + 1, .run m => after n m.step
  | _ + 1, .done o => .done o

@[simp] theorem after_zero (s : Step) : s.after 0 = s := rfl

theorem after_run (n : Nat) (m : Machine) : (Step.run m).after (n + 1) = m.step.after n := rfl

@[simp] theorem after_done (o : Outcome) : ∀ n, (Step.done o).after n = .done o
  | 0 => rfl
  | _ + 1 => rfl

theorem after_add (j : Nat) : ∀ (k : Nat) (s : Step), s.after (k + j) = (s.after k).after j
  | 0, s => by rw [Nat.zero_add, after_zero]
  | k + 1, .run m => by rw [Nat.add_right_comm, after_run, after_run, after_add j k]
  | k + 1, .done o => by rw [after_done, after_done, after_done]

theorem after_of_le {s : Step} {o : Outcome} {j k : Nat} (h : s.after j = .done o) (hjk : j ≤ k) :
    s.after k = .done o := by
  obtain ⟨d, rfl⟩ := Nat.exists_eq_add_of_le hjk
  rw [after_add, h, after_done]

theorem after_unique {s : Step} {o o' : Outcome} {j k : Nat} (h : s.after j = .done o) (h' : s.after k = .done o') :
    o = o' := by
  have hj := after_of_le h (Nat.le_max_left j k)
  rw [after_of_le h' (Nat.le_max_right j k)] at hj
  exact (Step.done.inj hj).symm

end Step

theorem Reaches.after {s s' : Step} {k : Nat} (h : Reaches k s s') : s.after k = s' := by
  induction h with
  | refl => rfl
  | step _ _ ih => exact ih

theorem Reaches.sound {s s' : Step} {j k : Nat} (h : Reaches k s s') (hjk : j < k) {m : Machine}
    (hm : s.after j = .run m) : m.Sound := by
  induction h generalizing j with
  | refl => exact absurd hjk (Nat.not_lt_zero j)
  | step hs _ ih =>
    cases j with
    | zero => exact Step.run.inj hm ▸ hs
    | succ j => exact ih (Nat.lt_of_succ_lt_succ hjk) hm

theorem Reaches.running {s s' : Step} {j k : Nat} (h : Reaches k s s') (hjk : j < k) : ∃ m, s.after j = .run m := by
  induction h generalizing j with
  | refl => exact absurd hjk (Nat.not_lt_zero j)
  | step _ _ ih =>
    cases j with
    | zero => exact ⟨_, rfl⟩
    | succ j => exact ih (Nat.lt_of_succ_lt_succ hjk)

namespace Machine

/-- The run from a machine comes through another one. -/
def Passes (m m' : Machine) : Prop := ∃ n, (Step.run m).after n = .run m'

theorem run_eq_some {o : Outcome} : ∀ {n : Nat} {m : Machine}, run n m = some o ↔ (Step.run m).after n = .done o
  | 0, m => by simp [run]
  | n + 1, m => by
    rw [run, Step.after_run]
    cases m.step with
    | run m' => exact run_eq_some
    | done o' => simp

theorem last_of_run {o : Outcome} : ∀ {n : Nat} {m : Machine}, run n m = some o → ∃ m', m.Passes m' ∧ m'.step = .done o
  | n + 1, m, h => by
    rw [run] at h
    cases hs : m.step with
    | done o' =>
      rw [hs] at h
      cases h
      exact ⟨m, ⟨0, rfl⟩, hs⟩
    | run m₁ =>
      rw [hs] at h
      obtain ⟨m', ⟨k, hk⟩, hlast⟩ := last_of_run h
      exact ⟨m', ⟨k + 1, by rw [Step.after_run, hs, hk]⟩, hlast⟩

end Machine

end ScriptEngine
