/-
Builders only grow. What a builder holds is still there in every later one, and
the finished code has each jump at its place with the position of its label.
Main statements: `Builder.Sub` of every step, and `Builder.finish_plain` and
`Builder.finish_jump` about finished code.
-/
import Std.Data.TreeMap.Lemmas
import ScriptEngine.Code.Builder

namespace ScriptEngine.Builder

variable {b b' : Builder} {S : Label → Prop} {l : Label}

/-! ## Requests -/

inductive Request
  | number (bits : UInt64)
  | string (s : String)
  | constant (v : Value)
  | function (u : CodeUnit)
  | temporary

namespace Request

def run : Request → Building Nat
  | .number bits => numberConstant bits
  | .string s => stringConstant s
  | .constant v => addConstant v
  | .function u => addFunction u
  | .temporary => newTemporary

def isInterned : Request → Bool
  | .number _ | .string _ => true
  | _ => false

def Holds (b : Builder) (i : Nat) : Request → Prop
  | .number bits => b.constants[i]? = some (.number (Float.ofBits bits))
  | .string s => b.constants[i]? = some (.string s)
  | .constant v => b.constants[i]? = some v
  | .function u => b.functions[i]? = some u
  | .temporary => i < b.temporaries

def known? (b : Builder) : Request → Option Nat
  | .number bits => b.numbers[bits]?
  | .string s => b.strings[s]?
  | _ => none

/-- The next place, and the most places, of the pool. -/
def place (b : Builder) : Request → Nat × Nat
  | .function _ => (b.functions.size, poolLimit)
  | .temporary => (b.temporaries, temporaryLimit)
  | _ => (b.constants.size, poolLimit)

/-- The builder with what was asked for at the next place. -/
def take (b : Builder) : Request → Builder
  | .number bits => { b with
      constants := b.constants.push (.number (Float.ofBits bits)), numbers := b.numbers.insert bits b.constants.size }
  | .string s => { b with constants := b.constants.push (.string s), strings := b.strings.insert s b.constants.size }
  | .constant v => { b with constants := b.constants.push v }
  | .function u => { b with functions := b.functions.push u }
  | .temporary => { b with temporaries := b.temporaries + 1 }

def limit : Request → LimitFault
  | .function _ => .functions
  | .temporary => .locals
  | _ => .constants

variable {q q' : Request} {i : Nat}

inductive Outcome (b : Builder) (q : Request) : EStateM.Result Fault Builder Nat → Prop
  | found {i : Nat} : q.known? b = some i → Outcome b q (.ok i b)
  | taken : q.known? b = none → (q.place b).1 < (q.place b).2 → Outcome b q (.ok (q.place b).1 (q.take b))
  | full : ¬ (q.place b).1 < (q.place b).2 → Outcome b q (.error (.limit q.limit) b)

theorem outcome (b : Builder) (q : Request) : Outcome b q (q.run b) := by
  cases q with
  | number bits =>
    simp only [run, numberConstant, addConstant]
    cases hk : b.numbers[bits]? with
    | some i => exact .found hk
    | none =>
      by_cases hlt : b.constants.size < poolLimit <;> simp only [hlt, if_true, if_false]
      · exact .taken hk hlt
      · exact .full hlt
  | string s =>
    simp only [run, stringConstant, addConstant]
    cases hk : b.strings[s]? with
    | some i => exact .found hk
    | none =>
      by_cases hlt : b.constants.size < poolLimit <;> simp only [hlt, if_true, if_false]
      · exact .taken hk hlt
      · exact .full hlt
  | constant v | function u | temporary =>
    simp only [run, addConstant, addFunction, newTemporary]
    split
    next hlt => exact .taken rfl hlt
    next hlt => exact .full hlt

theorem holds_take (b : Builder) (q : Request) : q.Holds (q.take b) (q.place b).1 := by
  cases q <;> simp [Holds, take, place]

theorem Holds.take (h : q'.Holds b i) (q : Request) : q'.Holds (q.take b) i := by
  have hpush : ∀ {α : Type} {xs : Array α} {x : α} (y : α), xs[i]? = some x → (xs.push y)[i]? = some x := by
    intro α xs x y hx
    rw [Array.getElem?_push, if_neg (Nat.ne_of_lt (Array.getElem?_eq_some_iff.1 hx).1), hx]
  cases q <;> cases q' <;> first | exact h | exact hpush _ h | exact Nat.lt_succ_of_lt h

theorem known?_take_self (b : Builder) (h : q.isInterned = true) : q.known? (q.take b) = some (q.place b).1 := by
  cases q <;> simp_all [isInterned, known?, Request.take, place]

theorem known?_take_ne (b : Builder) (h : q ≠ q') : q'.known? (q.take b) = q'.known? b := by
  cases q <;> cases q' <;> first | rfl | simp_all [known?, Request.take, Std.TreeMap.getElem?_insert]

theorem isInterned_of_known? (h : q.known? b = some i) : q.isInterned = true := by
  cases q <;> first | rfl | cases h

theorem known?_of_take (hi : q'.known? (q.take b) = some i) : q'.known? b = some i ∨ q' = q ∧ i = (q.place b).1 := by
  by_cases heq : q = q'
  · subst heq
    rw [known?_take_self b (isInterned_of_known? hi)] at hi
    exact .inr ⟨rfl, (Option.some.inj hi).symm⟩
  · exact .inl (known?_take_ne b heq ▸ hi)

theorem holds_of_known?_take (h : ∀ (q : Request) i, q.known? b = some i → q.Holds b i)
    (hi : q'.known? (q.take b) = some i) : q'.Holds (q.take b) i := by
  rcases known?_of_take hi with hi | ⟨rfl, rfl⟩
  · exact (h q' i hi).take q
  · exact holds_take b q'

end Request

/-! ## Stages -/

def position (b : Builder) (l : Label) : Option Nat := (b.labels[l.index]?).bind LabelState.position

def target (b : Builder) (l : Label) : Nat := (b.position l).getD 0

/-- Jumps to be patched are there and are patched once, the pools hold what their indices say, and
no name is noted for what is still to come. -/
structure Ok (b : Builder) : Prop where
  fixup_lt : ∀ x ∈ b.fixups, x.1 < b.size
  fixup_unique : ∀ x ∈ b.fixups, ∀ y ∈ b.fixups, x.1 = y.1 → x = y
  known : ∀ (q : Request) (k : Nat), q.known? b = some k → q.Holds b k
  noted : ∀ i, b.size ≤ i → b.slotNames[i]? = none

theorem ok_empty (n : Nat) : Ok { empty with temporaries := n } := by
  constructor
  case known =>
    intro q k hk
    cases q <;> simp [Request.known?, empty] at hk
  all_goals simp [empty]

structure Sub (b b' : Builder) : Prop where
  size : b.size ≤ b'.size
  instructions : ∀ i, i < b.size → b'.instructions[i]? = b.instructions[i]?
  fixups : ∀ x : Nat × Label, x.1 < b.size → (x ∈ b'.fixups ↔ x ∈ b.fixups)
  constants : ∀ {k : Nat} {v}, b.constants[k]? = some v → b'.constants[k]? = some v
  functions : ∀ {k : Nat} {u}, b.functions[k]? = some u → b'.functions[k]? = some u
  slotNames : ∀ i, i < b.size → b'.slotNames[i]? = b.slotNames[i]?
  temporaries : b.temporaries ≤ b'.temporaries
  labels : b.labels.size ≤ b'.labels.size
  marked : ∀ {l p}, b.position l = some p → b'.position l = some p

theorem Sub.refl (b : Builder) : b.Sub b := by
  constructor <;> simp

theorem Sub.trans {b'' : Builder} (h : b.Sub b') (h' : b'.Sub b'') : b.Sub b'' where
  size := Nat.le_trans h.size h'.size
  instructions i hi := (h'.instructions i (Nat.lt_of_lt_of_le hi h.size)).trans (h.instructions i hi)
  fixups x hx := (h'.fixups x (Nat.lt_of_lt_of_le hx h.size)).trans (h.fixups x hx)
  constants hk := h'.constants (h.constants hk)
  functions hk := h'.functions (h.functions hk)
  slotNames i hi := (h'.slotNames i (Nat.lt_of_lt_of_le hi h.size)).trans (h.slotNames i hi)
  temporaries := Nat.le_trans h.temporaries h'.temporaries
  labels := Nat.le_trans h.labels h'.labels
  marked hl := h'.marked (h.marked hl)

/-- Only labels of `S` were given a position on the way, and those of `S'` are left over. -/
structure Settles (S S' : Label → Prop) (b b' : Builder) : Prop where
  kept : ∀ l, l.index < b.labels.size → ¬ S l → b'.position l = b.position l
  fewer : ∀ l, l.index < b.labels.size → S' l → S l

theorem Settles.of_labels_eq (hl : b'.labels = b.labels) : Settles S S b b' :=
  ⟨fun l _ _ => by rw [position, position, hl], fun _ _ h => h⟩

theorem Settles.trans {S₁ S' : Label → Prop} {b'' : Builder} (hb : b.Sub b') (h : Settles S S₁ b b')
    (h' : Settles S₁ S' b' b'') :
    Settles S S' b b'' where
  kept l hl hs := by
    rw [h'.kept l (Nat.lt_of_lt_of_le hl hb.labels) fun hs' => hs (h.fewer l hl hs'), h.kept l hl hs]
  fewer l hl hs := h.fewer l hl (h'.fewer l (Nat.lt_of_lt_of_le hl hb.labels) hs)

/-- The builder is a stage of another one that is sound at the end; only labels of `S` are
given a position in between. -/
structure EndsIn (S : Label → Prop) (b B : Builder) : Prop where
  ok : B.Ok
  sub : b.Sub B
  lost : ∀ l, l.index < b.labels.size → ¬ S l → B.position l = b.position l

theorem EndsIn.back {S' : Label → Prop} {B : Builder} (h : EndsIn S' b' B) (hb : b.Sub b') (hs : Settles S S' b b') :
    EndsIn S b B where
  ok := h.ok
  sub := hb.trans h.sub
  lost l hl hn := by
    rw [h.lost l (Nat.lt_of_lt_of_le hl hb.labels) fun hs' => hn (hs.fewer l hl hs'), hs.kept l hl hn]

/-- The labels of a builder that have no position yet. -/
def Open (b : Builder) (l : Label) : Prop := l.index < b.labels.size ∧ b.position l = none

def Pending (S : Label → Prop) (b : Builder) : Prop :=
  ∀ l, S l → l.index < b.labels.size ∧ b.position l = none

theorem Pending.of_labels_eq (h : b.Pending S) (hl : b'.labels = b.labels) : b'.Pending S := by
  intro l hs
  rw [hl, position, hl]
  exact h l hs

/-! ## Steps -/

theorem sub_emit (b : Builder) (i : Instruction) : b.Sub (b.emit i) where
  size := by simp [emit, size]
  instructions j hj := by
    simp only [size] at hj
    simp [emit, Array.getElem?_push, Nat.ne_of_lt hj]
  fixups x _ := Iff.rfl
  constants := id
  functions := id
  slotNames _ _ := rfl
  temporaries := Nat.le_refl _
  labels := Nat.le_refl _
  marked := id

theorem Ok.emit (h : b.Ok) (i : Instruction) : (b.emit i).Ok where
  fixup_lt x hx := Nat.lt_of_lt_of_le (h.fixup_lt x hx) (sub_emit b i).size
  fixup_unique := h.fixup_unique
  known := h.known
  noted j hj := h.noted j (Nat.le_trans (sub_emit b i).size hj)

theorem sub_emitSlot (b : Builder) (name : String) (i : Instruction) : b.Sub (b.emitSlot name i) where
  size := (sub_emit b i).size
  instructions := (sub_emit b i).instructions
  fixups x _ := Iff.rfl
  constants := id
  functions := id
  slotNames j hj := by
    have hne : b.size ≠ j := by omega
    simp [emitSlot, emit, Std.TreeMap.getElem?_insert, hne]
  temporaries := Nat.le_refl _
  labels := Nat.le_refl _
  marked := id

theorem Ok.emitSlot (h : b.Ok) (name : String) (i : Instruction) : (b.emitSlot name i).Ok where
  fixup_lt x hx := Nat.lt_of_lt_of_le (h.fixup_lt x hx) (sub_emit b i).size
  fixup_unique := h.fixup_unique
  known := h.known
  noted j hj := by
    have hsize : (b.emitSlot name i).size = b.size + 1 := by simp [Builder.emitSlot, Builder.emit, size]
    have hne : b.size ≠ j := by omega
    have hnone := h.noted j (by omega)
    simpa [Builder.emitSlot, Builder.emit, Std.TreeMap.getElem?_insert, hne] using hnone

theorem position_emitJump (b : Builder) (op : Opcode) (l l' : Label) :
    (b.emitJump op l).position l' = b.position l' := by
  simp only [position, emitJump, emit, Array.getElem?_modify]
  split
  · cases b.labels[l'.index]? <;> rfl
  · rfl

theorem fixups_emitJump (b : Builder) (op : Opcode) (l : Label) :
    (b.emitJump op l).fixups = b.fixups.push (b.size, l) := rfl

theorem sub_emitJump (b : Builder) (op : Opcode) (l : Label) : b.Sub (b.emitJump op l) where
  size := by simp [emitJump, emit, size]
  instructions j hj := by
    simp only [size] at hj
    simp [emitJump, emit, Array.getElem?_push, Nat.ne_of_lt hj]
  fixups x hx := by
    rw [fixups_emitJump, Array.mem_push]
    refine ⟨fun h => h.resolve_right ?_, .inl⟩
    rintro rfl
    simp at hx
  constants := id
  functions := id
  slotNames _ _ := rfl
  temporaries := Nat.le_refl _
  labels := by simp [emitJump, emit]
  marked h := by rw [position_emitJump]; exact h

theorem Ok.emitJump (h : b.Ok) (op : Opcode) (l : Label) : (b.emitJump op l).Ok where
  fixup_lt x hx := by
    rw [fixups_emitJump, Array.mem_push] at hx
    have hsize : (b.emitJump op l).size = b.size + 1 := by simp [Builder.emitJump, Builder.emit, size]
    rcases hx with hx | rfl
    · have := h.fixup_lt x hx
      omega
    · simp [hsize]
  fixup_unique x hx y hy hxy := by
    rw [fixups_emitJump, Array.mem_push] at hx hy
    rcases hx with hx | rfl <;> rcases hy with hy | rfl
    · exact h.fixup_unique x hx y hy hxy
    · have := h.fixup_lt x hx
      simp at hxy
      omega
    · have := h.fixup_lt y hy
      simp at hxy
      omega
    · rfl
  known := h.known
  noted j hj := h.noted j (Nat.le_trans (sub_emitJump b op l).size hj)

theorem Pending.emitJump (h : b.Pending S) (op : Opcode) (l : Label) : (b.emitJump op l).Pending S := by
  intro l' hs
  rw [position_emitJump]
  refine ⟨?_, (h l' hs).2⟩
  simpa [Builder.emitJump, Builder.emit] using (h l' hs).1

theorem settles_emitJump (b : Builder) (op : Opcode) (l : Label) : Settles S S b (b.emitJump op l) :=
  ⟨fun l' _ _ => position_emitJump b op l l', fun _ _ h => h⟩

theorem position_newLabel (b : Builder) (l : Label) : b.newLabel.2.position l = b.position l := by
  simp only [position, newLabel, Array.getElem?_push]
  split
  next h => simp [h]
  next => rfl

theorem sub_newLabel (b : Builder) : b.Sub b.newLabel.2 where
  size := Nat.le_refl _
  instructions _ _ := rfl
  fixups _ _ := Iff.rfl
  constants := id
  functions := id
  slotNames _ _ := rfl
  temporaries := Nat.le_refl _
  labels := by simp [newLabel]
  marked h := by rw [position_newLabel]; exact h

theorem settles_newLabel (b : Builder) : Settles S (fun l => l = b.newLabel.1 ∨ S l) b b.newLabel.2 where
  kept l _ _ := position_newLabel b l
  fewer l hl hs := by
    refine hs.resolve_left ?_
    rintro rfl
    exact Nat.lt_irrefl _ hl

theorem Ok.newLabel (h : b.Ok) : b.newLabel.2.Ok := ⟨h.1, h.2, h.3, h.4⟩

theorem Pending.newLabel (h : b.Pending S) : ¬ S b.newLabel.1 ∧ b.newLabel.2.Pending fun l => l = b.newLabel.1 ∨ S l := by
  refine ⟨fun hs => ?_, fun l hl => ?_⟩
  · have := (h _ hs).1
    simp [Builder.newLabel] at this
  · rw [position_newLabel]
    rcases hl with rfl | hl
    · simp [Builder.newLabel, position]
    · have := h l hl
      exact ⟨by simp [Builder.newLabel]; omega, this.2⟩

theorem position_mark_self (h : l.index < b.labels.size) : (b.mark l).position l = some b.size := by
  simp [position, mark, Array.getElem?_modify, Array.getElem?_eq_getElem h, size]

theorem position_mark_ne {l' : Label} (h : l' ≠ l) : (b.mark l).position l' = b.position l' := by
  have hne : l.index ≠ l'.index := fun hi => h (by cases l; cases l'; cases hi; rfl)
  simp [position, mark, Array.getElem?_modify, hne]

theorem sub_mark (h : b.position l = none) : b.Sub (b.mark l) where
  size := Nat.le_refl _
  instructions _ _ := rfl
  fixups _ _ := Iff.rfl
  constants := id
  functions := id
  slotNames _ _ := rfl
  temporaries := Nat.le_refl _
  labels := by simp [mark]
  marked {l' p} hp := by
    have hne : l' ≠ l := by
      rintro rfl
      rw [h] at hp
      cases hp
    rw [position_mark_ne hne]
    exact hp

theorem settles_mark (h : S l) : Settles S (fun l' => l' ≠ l ∧ S l') b (b.mark l) where
  kept _ _ hn := position_mark_ne fun he => hn (he ▸ h)
  fewer _ _ hs := hs.2

theorem Ok.mark (h : b.Ok) (l : Label) : (b.mark l).Ok := ⟨h.1, h.2, h.3, h.4⟩

theorem Pending.mark (h : b.Pending S) (l : Label) : (b.mark l).Pending fun l' => l' ≠ l ∧ S l' := by
  rintro l' ⟨hne, hs⟩
  rw [position_mark_ne hne]
  exact ⟨by simpa [Builder.mark] using (h l' hs).1, (h l' hs).2⟩

/-! ## Pools -/

structure Granted (b : Builder) (q : Request) (k : Nat) (b' : Builder) : Prop where
  ok : b.Ok → b'.Ok
  sub : b.Sub b'
  holds : b.Ok → q.Holds b' k
  size : b'.size = b.size
  labels : b'.labels = b.labels
  kept : q.isInterned = true → b'.temporaries = b.temporaries ∧ b'.functions = b.functions

theorem Sub.holds {q : Request} {k : Nat} (h : b.Sub b') (hq : q.Holds b k) : q.Holds b' k := by
  cases q with
  | number | string | constant => exact h.constants hq
  | function => exact h.functions hq
  | temporary => exact Nat.lt_of_lt_of_le hq h.temporaries

theorem Request.sub_take (b : Builder) (q : Request) : b.Sub (q.take b) where
  size := by cases q <;> exact Nat.le_refl _
  instructions _ _ := by cases q <;> rfl
  fixups _ _ := by cases q <;> exact Iff.rfl
  constants := @fun _ v h => (show Request.Holds b _ (.constant v) from h).take q
  functions := @fun _ u h => (show Request.Holds b _ (.function u) from h).take q
  slotNames _ _ := by cases q <;> rfl
  temporaries := by cases q <;> simp [take]
  labels := by cases q <;> exact Nat.le_refl _
  marked := by cases q <;> exact id

theorem Request.granted {q : Request} {k : Nat} (h : q.run b = .ok k b') : b.Granted q k b' := by
  have ho := outcome b q
  rw [h] at ho
  cases ho with
  | found hk => exact ⟨id, .refl b, fun hb => hb.known q k hk, rfl, rfl, fun _ => ⟨rfl, rfl⟩⟩
  | taken _ _ =>
    refine ⟨fun hb => ?_, sub_take b q, fun _ => holds_take b q, ?_, ?_, fun hq => ?_⟩
    · have known : ∀ (q' : Request) k, q'.known? (q.take b) = some k → q'.Holds (q.take b) k := fun _ _ =>
        holds_of_known?_take hb.known
      cases q <;> exact ⟨hb.fixup_lt, hb.fixup_unique, known, hb.noted⟩
    · cases q <;> rfl
    · cases q <;> rfl
    · cases q <;> first | exact ⟨rfl, rfl⟩ | cases hq

theorem Request.take_of_run {q : Request} {k : Nat} (hq : q.isInterned = false) (h : q.run b = .ok k b') :
    k = (q.place b).1 ∧ b' = q.take b := by
  have ho := outcome b q
  rw [h] at ho
  cases ho with
  | found hk => exact absurd (isInterned_of_known? hk) (by simp [hq])
  | taken => exact ⟨rfl, rfl⟩

/-! ## Finished code -/

theorem resolve_ok {labels : Array LabelState} {code code' : Array Instruction} {x : Nat × Label}
    (h : resolve labels code x = .ok code') :
    ∃ p, (labels[x.2.index]?).bind LabelState.position = some p ∧
      code' = code.modify x.1 fun i => { i with operand := some (.target p) } := by
  unfold resolve at h
  split at h
  next p hp =>
    cases h
    exact ⟨p, hp, rfl⟩
  next => cases h

theorem resolveAll_cons {labels : Array LabelState} {code code' : Array Instruction} {x : Nat × Label}
    {xs : List (Nat × Label)} (h : (x :: xs).foldlM (resolve labels) code = .ok code') :
    ∃ p, (labels[x.2.index]?).bind LabelState.position = some p ∧
      xs.foldlM (resolve labels) (code.modify x.1 fun i => { i with operand := some (.target p) }) = .ok code' := by
  rw [List.foldlM_cons] at h
  cases hr : resolve labels code x with
  | error e =>
    rw [hr] at h
    cases h
  | ok mid =>
    rw [hr] at h
    obtain ⟨p, hp, rfl⟩ := resolve_ok hr
    exact ⟨p, hp, h⟩

theorem resolveAll_plain {labels : Array LabelState} {i : Nat} : ∀ {xs : List (Nat × Label)} {code code'},
    xs.foldlM (resolve labels) code = .ok code' → (∀ x ∈ xs, x.1 ≠ i) → code'[i]? = code[i]?
  | [], code, code', h, _ => by
    cases h
    rfl
  | x :: xs, code, code', h, hx => by
    obtain ⟨p, -, h⟩ := resolveAll_cons h
    rw [resolveAll_plain h fun y hy => hx y (List.mem_cons_of_mem _ hy), Array.getElem?_modify,
      if_neg (hx x List.mem_cons_self)]

theorem size_resolveAll {labels : Array LabelState} : ∀ {xs : List (Nat × Label)} {code code'},
    xs.foldlM (resolve labels) code = .ok code' → code'.size = code.size
  | [], code, code', h => by
    cases h
    rfl
  | x :: xs, code, code', h => by
    obtain ⟨p, -, h⟩ := resolveAll_cons h
    rw [size_resolveAll h, Array.size_modify]

theorem resolveAll_jump {labels : Array LabelState} {i : Nat} {l : Label} :
    ∀ {xs : List (Nat × Label)} {code code'}, xs.foldlM (resolve labels) code = .ok code' →
      (i, l) ∈ xs → (∀ x ∈ xs, x.1 = i → x = (i, l)) →
      ∃ p, (labels[l.index]?).bind LabelState.position = some p ∧
        code'[i]? = code[i]?.map fun j => { j with operand := some (.target p) }
  | [], _, _, _, hm, _ => by cases hm
  | x :: xs, code, code', h, hm, hu => by
    obtain ⟨p, hp, h⟩ := resolveAll_cons h
    by_cases hx : x.1 = i
    · obtain rfl := hu x List.mem_cons_self hx
      refine ⟨p, hp, ?_⟩
      by_cases hin : (i, l) ∈ xs
      · obtain ⟨q, hq, hc⟩ := resolveAll_jump h hin fun y hy => hu y (List.mem_cons_of_mem _ hy)
        have hpq : p = q := by simpa [hp] using hq
        rw [hc, Array.getElem?_modify, if_pos rfl, hpq]
        cases code[i]? <;> rfl
      · have hne : ∀ y ∈ xs, y.1 ≠ i := fun y hy hyi =>
          hin (hu y (List.mem_cons_of_mem _ hy) hyi ▸ hy)
        rw [resolveAll_plain h hne, Array.getElem?_modify, if_pos rfl]
    · have hin : (i, l) ∈ xs := by
        rcases List.mem_cons.1 hm with rfl | hin
        · exact absurd rfl hx
        · exact hin
      obtain ⟨q, hq, hc⟩ := resolveAll_jump h hin fun y hy => hu y (List.mem_cons_of_mem _ hy)
      refine ⟨q, hq, ?_⟩
      rw [hc, Array.getElem?_modify, if_neg hx]

theorem size_finish {code} (h : b.finish = .ok code) : code.size = b.size := by
  rw [finish, ← Array.foldlM_toList] at h
  exact size_resolveAll h

theorem finish_plain {code i} (h : b.finish = .ok code) (hi : ∀ x ∈ b.fixups, x.1 ≠ i) : code[i]? = b.instructions[i]? := by
  rw [finish, ← Array.foldlM_toList] at h
  exact resolveAll_plain h fun x hx => hi x (Array.mem_toList_iff.1 hx)

theorem finish_jump (hb : b.Ok) {code i l} (h : b.finish = .ok code) (hm : (i, l) ∈ b.fixups) :
    code[i]? = b.instructions[i]?.map fun j => { j with operand := some (.target (b.target l)) } := by
  rw [finish, ← Array.foldlM_toList] at h
  obtain ⟨p, hp, hc⟩ := resolveAll_jump h (Array.mem_toList_iff.2 hm)
    fun x hx hxi => hb.fixup_unique x (Array.mem_toList_iff.1 hx) (i, l) hm hxi
  have ht : b.target l = p := by simp [target, position, hp]
  rw [hc, ht]

theorem position_of_finish (hb : b.Ok) {code i l} (h : b.finish = .ok code) (hm : (i, l) ∈ b.fixups) :
    b.position l ≠ none := by
  rw [finish, ← Array.foldlM_toList] at h
  obtain ⟨p, hp, -⟩ := resolveAll_jump h (Array.mem_toList_iff.2 hm)
    fun x hx hxi => hb.fixup_unique x (Array.mem_toList_iff.1 hx) (i, l) hm hxi
  rw [position, hp]
  nofun

end ScriptEngine.Builder
