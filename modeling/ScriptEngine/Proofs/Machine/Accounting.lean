/-
The stack accounting of the instructions is right. An instruction that succeeds, in
whatever frame, had its operands on the stack and leaves as many values in their
place as its effect says, or as its effect where it jumps says; what lies below
the operands stays. An instruction that begins a frame has succeeded when that frame
has given its value, and whatever ran for it, the machine then comes back to the
frame that waited. Main statement: `Machine.stack_accounting`.
-/
import ScriptEngine.Proofs.Machine.Activation

namespace ScriptEngine

theorem Trades.paid {n m : Nat} {s t : List Value} (h : Trades n m 1 s t) (v : Value) : Trades n m 0 s (v :: t) := by
  have hlength := h.length
  refine ⟨by rw [List.length_cons]; omega, ?_⟩
  cases m with
  | succ m => exact h.below
  | zero =>
    have hbelow := congrArg List.length h.below
    rw [List.length_drop, List.length_drop] at hbelow
    omega

theorem Trades.split {n m : Nat} {s t : List Value} (h : Trades n m 0 s t) (hn : n ≤ s.length) :
    ∃ operands results below, s = operands ++ below ∧ t = results ++ below ∧ operands.length = n ∧ results.length = m := by
  have hlength : t.length + n = s.length + m := h.length
  refine ⟨s.take n, t.take m, s.drop n, (List.take_append_drop n s).symm, ?_, List.length_take_of_le hn,
    List.length_take_of_le (by omega)⟩
  rw [← h.below]
  exact (List.take_append_drop m t).symm

namespace Instruction

/-- Where an instruction jumps to with these operands on the stack, if it jumps. -/
def jump? : Instruction → List Value → Option Nat
  | ⟨.jump, some (.target t)⟩, _ => some t
  | ⟨.jumpIfFalse, some (.target t)⟩, v :: _ | ⟨.logicalAnd, some (.target t)⟩, v :: _ =>
    if v.toBoolean == false then some t else none
  | ⟨.jumpIfTrue, some (.target t)⟩, v :: _ | ⟨.logicalOr, some (.target t)⟩, v :: _ =>
    if v.toBoolean == true then some t else none
  | _, _ => none

/-- How much higher the stack is behind the instruction, or where it jumps to. -/
def effect (i : Instruction) (s : List Value) : Int := if (i.jump? s).isSome then i.takenEffect else i.stackEffect

/-- The instruction succeeds, at once or when the frame that it began has run and given its value. -/
inductive Succeeds (i : Instruction) (a : Activity) : Activity → Prop
  | proceeds {b : Activity} : i.exec a = .ok .proceed b → Succeeds i a b
  | leaves {v : Value} {b : Activity} : i.exec a = .ok (.leave v) b → Succeeds i a b
  | calls {f : Frame} {b : Activity} {n : Nat} {v : Value} {realm : Realm} : i.exec a = .ok (.enter f) b →
      Machine.run n ⟨b.realm, f, []⟩ = some ⟨.ok v, realm⟩ → Succeeds i a ⟨realm, b.frame.push v⟩

theorem zero_le_effect (i : Instruction) (s : List Value) : 0 ≤ (i.takes : Int) + i.effect s := by
  have htaken : 0 ≤ (i.takes : Int) + i.takenEffect := by
    obtain ⟨op, operand⟩ := i
    cases op <;> simp only [takes, takenEffect, stackEffect] <;> omega
  have hfalls := i.zero_le_takes
  unfold effect
  split
  · exact htaken
  · exact hfalls

theorem jump?_of_falls {i : Instruction} (h : i.transfer = .falls) (s : List Value) : i.jump? s = none := by
  unfold jump?
  split <;> first | rfl | cases h

end Instruction

/-! ## Operands -/

namespace Exec

def Needs (n : Nat) (x : Exec α) : Prop := ∀ a : Activity, a.frame.stack.length < n → ∃ e b, x a = .error e b

variable {n m k j : Nat} {x : Exec α} {f : α → Exec β}

theorem Needs.bind (hx : Needs n x) : Needs n (x >>= f) := by
  intro a ha
  obtain ⟨e, b, hx⟩ := hx a ha
  exact ⟨e, b, by simp only [Bind.bind, EStateM.bind, hx]⟩

theorem Needs.behind (hx : Shifts k 0 x) (hf : ∀ r, Needs j (f r)) : Needs (k + j) (x >>= f) := by
  intro a ha
  have hx := hx a
  simp only [Bind.bind, EStateM.bind]
  revert hx
  cases x a with
  | error e b => exact fun _ => ⟨e, b, rfl⟩
  | ok r b =>
    rintro ⟨-, htrades⟩
    have hlength : b.frame.stack.length + k = a.frame.stack.length := htrades.length
    exact hf r b (by omega)

theorem needs_nothing : Needs 0 x := fun _ ha => absurd ha (Nat.not_lt_zero _)

theorem needs_takeOff {f : Frame → Option α × Frame} (h : ∀ g : Frame, g.stack.length < n → (f g).1 = none) :
    Needs n (takeOff f) := by
  rintro ⟨r, g⟩ ha
  have h := h g ha
  revert h
  simp only [takeOff]
  obtain ⟨x, g'⟩ := f g
  rintro rfl
  exact ⟨_, _, rfl⟩

theorem needs_pop : Needs 1 pop := needs_takeOff fun g hg => by
  rw [Frame.pop, List.length_eq_zero_iff.1 (Nat.lt_one_iff.1 hg)]
  rfl

theorem needs_peek : Needs 1 peek := needs_takeOff fun g hg => by
  rw [List.length_eq_zero_iff.1 (Nat.lt_one_iff.1 hg)]
  rfl

theorem needs_pop2 : Needs 2 pop2 := .behind quiet_pop.shifts fun _ => needs_pop.bind

/-- The activity takes `n` operands, leaves `m` and goes on at its position. -/
def Lands (n m : Nat) (x : Exec Next) : Prop := ∀ a next b, x a = .ok next b →
  b.frame.position = a.frame.position ∧ Trades n m next.owed a.frame.stack b.frame.stack

theorem Lands.of_moves {x : Exec Next} (h : Moves Next.owed n m x) : Lands n m x := by
  intro a next b hb
  have h := h a
  rw [hb] at h
  exact ⟨h.1.position, h.2⟩

theorem Lands.bind {f : α → Exec Next} (hx : Shifts n m x) (hf : ∀ r, Lands m k (f r)) : Lands n k (x >>= f) := by
  intro a next b hb
  have hx := hx a
  simp only [Bind.bind, EStateM.bind] at hb
  cases h : x a with
  | error e c =>
    rw [h] at hb
    cases hb
  | ok r c =>
    rw [h] at hb hx
    obtain ⟨hposition, htrades⟩ := hf r c next b hb
    exact ⟨hposition.trans hx.1.position, hx.2.trans htrades⟩

theorem lands_raise (f : Fault) : Lands n m (raise f) := fun _ _ _ h => by cases h

theorem lands_modifyFrame {f : Frame → Frame} (h : ∀ g : Frame, (f g).position = g.position ∧ (f g).stack = g.stack) :
    Lands n n (modifyFrame f >>= fun _ => pure .proceed) := by
  intro a next b hb
  cases hb
  exact ⟨(h a.frame).1, (h a.frame).2.symm ▸ .refl _⟩

theorem lands_leave (v : Value) : Lands n n (pure (.leave v)) := .of_moves (.pure rfl)

theorem lands_throw (v : Value) : Lands n m (throw (.thrown v)) := fun _ _ _ h => by cases h

theorem lands_leaveTry : Lands n n leaveTry := lands_modifyFrame fun _ => ⟨rfl, rfl⟩

theorem lands_pushScope (record : Record) : Lands n n (pushScope record) :=
  .bind (shifts_inRealm _) fun _ => lands_modifyFrame fun _ => ⟨rfl, rfl⟩

theorem lands_pushWithScope : Lands (n + 1) n pushWithScope := by
  refine .bind quiet_pop.shifts fun v => ?_
  split
  · exact lands_pushScope _
  · exact .bind (quiet_readStore _).shifts fun _ => lands_raise _

theorem lands_popScope : Lands n n popScope := by
  refine .bind (quiet_readFrame _).shifts fun scope => ?_
  split
  · exact lands_modifyFrame fun _ => ⟨rfl, rfl⟩
  · exact lands_raise _

theorem targetOperand_bind {i : Instruction} {k : Nat → Exec Next} {a b : Activity} {next : Next}
    (h : (targetOperand i >>= k) a = .ok next b) : ∃ t, i.operand = some (.target t) ∧ k t a = .ok next b := by
  obtain ⟨op, operand⟩ := i
  rcases operand with - | operand
  · cases h
  cases operand with
  | target t => exact ⟨t, rfl, h⟩
  | _ => cases h

section

variable {truth : Bool} {t : Nat} {a b : Activity} {next : Next} {v : Value} {rest : List Value}

theorem jumpWhen_ok (h : jumpWhen truth t a = .ok next b) (hs : a.frame.stack = v :: rest) : next = .proceed ∧
    b.frame.position = (if v.toBoolean == truth then t else a.frame.position) ∧ b.frame.stack = rest := by
  cases (jumpWhen_eq truth t a.realm hs).symm.trans h
  exact ⟨rfl, rfl, rfl⟩

theorem shortCircuit_ok (h : shortCircuit truth t a = .ok next b) (hs : a.frame.stack = v :: rest) : next = .proceed ∧
    b.frame.position = (if v.toBoolean == truth then t else a.frame.position) ∧
    b.frame.stack = if v.toBoolean == truth then v :: rest else rest := by
  cases (shortCircuit_eq truth t a.realm hs).symm.trans h
  rw [← hs]
  split <;> exact ⟨rfl, rfl, rfl⟩

end

end Exec

open Exec

namespace Instruction

theorem needs_exec (i : Instruction) : Needs i.takes i.exec := by
  obtain ⟨op, operand⟩ := i
  cases op with
  | pop | dup | neg | toNumber | not | bitNot | typeOf | ret | throwValue | pushWithScope =>
    first | exact needs_pop.bind | exact needs_peek.bind
  | storeLocal | forInPrepare => exact .behind (quiet_temporaryOperand _).shifts fun _ => needs_pop.bind
  | storeSlot => exact .behind (quiet_slotOperand _).shifts fun _ => needs_peek.bind
  | storeName | storeNameStrict =>
    exact .behind (quiet_nameOperand _).shifts fun _ => needs_peek.bind
  | pushCatchScope => exact .behind (quiet_nameOperand _).shifts fun _ => needs_pop.bind
  | jumpIfFalse | jumpIfTrue | logicalAnd | logicalOr =>
    rcases operand with - | operand
    · exact fun a _ => ⟨_, a, rfl⟩
    cases operand with
    | target t => first | exact (needs_pop.bind : Needs 1 (jumpWhen _ t)) | exact (needs_peek.bind : Needs 1 (shortCircuit _ t))
    | _ => exact fun a _ => ⟨_, a, rfl⟩
  | defineProperty =>
    exact .behind (j := 2) (quiet_nameOperand _).shifts fun _ => .behind quiet_pop.shifts fun _ => needs_peek.bind
  | setProperty => exact .behind quiet_pop.shifts fun _ => needs_pop2.bind
  | call | callEval =>
    rcases operand with - | operand
    · exact fun a _ => ⟨_, a, rfl⟩
    cases operand with
    | call c d => exact .behind (quiet_popMany (n := 0) c).shifts fun _ => needs_pop2.bind
    | _ => exact fun a _ => ⟨_, a, rfl⟩
  | new =>
    rcases operand with - | operand
    · exact fun a _ => ⟨_, a, rfl⟩
    cases operand with
    | count c => exact .behind (x := popMany c) (quiet_popMany (n := 0) c).shifts fun _ => needs_pop.bind
    | _ => exact fun a _ => ⟨_, a, rfl⟩
  | _ => first | exact needs_nothing | exact needs_pop2.bind

theorem takes_le {i : Instruction} {a b : Activity} {next : Next} (h : i.exec a = .ok next b) :
    i.takes ≤ a.frame.stack.length := by
  refine Nat.le_of_not_lt fun hlt => ?_
  obtain ⟨e, c, herror⟩ := i.needs_exec a hlt
  rw [h] at herror
  cases herror

theorem trades_exec {i : Instruction} {a b : Activity} {next : Next} (h : i.exec a = .ok next b) :
    b.frame.position = (i.jump? a.frame.stack).getD a.frame.position ∧
      Trades i.takes (i.takes + i.effect a.frame.stack).toNat next.owed a.frame.stack b.frame.stack := by
  by_cases hfalls : i.transfer = .falls
  · obtain ⟨hposition, htrades⟩ := Lands.of_moves (moves_exec hfalls) a next b h
    simp only [effect, jump?_of_falls hfalls]
    exact ⟨hposition, htrades⟩
  have htakes := takes_le h
  obtain ⟨op, operand⟩ := i
  cases op
  case leaveTry => exact lands_leaveTry _ next b h
  case popScope => exact lands_popScope _ next b h
  case pushWithScope => exact lands_pushWithScope _ next b h
  case pushCatchScope =>
    exact Lands.bind (n := 1) (quiet_nameOperand _).shifts (fun _ => .bind quiet_pop.shifts fun _ => lands_pushScope _) _ next b h
  case ret => exact Lands.bind quiet_pop.shifts (fun _ => lands_leave _) _ next b h
  case throwValue => exact Lands.bind (m := 0) quiet_pop.shifts (fun _ => lands_throw _) _ next b h
  case jump | enterTry =>
    obtain ⟨t, rfl, h⟩ := targetOperand_bind h
    cases h
    exact ⟨rfl, .refl _⟩
  case jumpIfFalse | jumpIfTrue =>
    obtain ⟨t, rfl, h⟩ := targetOperand_bind h
    obtain ⟨v, rest, hs⟩ := List.exists_cons_of_length_pos htakes
    obtain ⟨rfl, hposition, hstack⟩ := jumpWhen_ok h hs
    rw [hposition, hstack, hs, effect]
    cases hv : v.toBoolean <;> simp only [jump?, hv] <;> exact ⟨rfl, .pop v rest⟩
  case logicalAnd | logicalOr =>
    obtain ⟨t, rfl, h⟩ := targetOperand_bind h
    obtain ⟨v, rest, hs⟩ := List.exists_cons_of_length_pos htakes
    obtain ⟨rfl, hposition, hstack⟩ := shortCircuit_ok h hs
    rw [hposition, hstack, hs, effect]
    cases hv : v.toBoolean <;> simp only [jump?, hv] <;> first | exact ⟨rfl, .refl _⟩ | exact ⟨rfl, .pop v rest⟩
  all_goals exact (hfalls rfl).elim

end Instruction

/-! ## Frames that wait -/

def Machine.above (m : Machine) (fs : List Frame) : Machine := { m with callers := m.callers ++ fs }

/-- What a step comes to when a frame waits for the outermost one. -/
def Step.above (w : Frame) (fs : List Frame) : Step → Step
  | .run m => .run (m.above (w :: fs))
  | .done ⟨.ok v, realm⟩ => .run ⟨realm, w.push v, fs⟩
  | .done ⟨.error e, realm⟩ => Machine.unwind e realm w fs

namespace Machine

theorem deliver_above (realm : Realm) (purpose : Purpose) (v : Value) (callers : List Frame) (w : Frame) (fs : List Frame) :
    deliver realm purpose v (callers ++ w :: fs) = (deliver realm purpose v callers).above w fs := by
  cases callers <;> rfl

theorem unwind_above (e : Raised) (w : Frame) (fs : List Frame) : ∀ (callers : List Frame) (realm : Realm) (f : Frame),
    unwind e realm f (callers ++ w :: fs) = (unwind e realm f callers).above w fs
  | [], realm, f => by
    simp only [List.nil_append, unwind]
    cases receive e realm f with
    | mk g realm' => cases g <;> rfl
  | c :: callers, realm, f => by
    simp only [List.cons_append, unwind]
    cases receive e realm f with
    | mk g realm' =>
      cases g with
      | some g => rfl
      | none => exact unwind_above e w fs callers realm' c

theorem step_above (m : Machine) (w : Frame) (fs : List Frame) : (m.above (w :: fs)).step = m.step.above w fs := by
  obtain ⟨realm, f, callers⟩ := m
  simp only [step, above]
  cases f.code.instructions[f.position]? with
  | none => exact deliver_above _ _ _ _ _ _
  | some i =>
    dsimp only
    cases i.exec ⟨realm, { f with position := f.position + 1 }⟩ with
    | error e a => exact unwind_above _ _ _ _ _ _
    | ok next a =>
      cases next with
      | proceed => rfl
      | leave v => exact deliver_above _ _ _ _ _ _
      | enter g => rfl

theorem passes_of_run {v : Value} {realm : Realm} (w : Frame) (fs : List Frame) : ∀ {n : Nat} {m : Machine},
    run n m = some ⟨.ok v, realm⟩ → (m.above (w :: fs)).Passes ⟨realm, w.push v, fs⟩
  | n + 1, m, h => by
    rw [run] at h
    cases hs : m.step with
    | done o =>
      rw [hs] at h
      cases h
      exact ⟨1, by rw [Step.after_run, step_above, hs]; rfl⟩
    | run m₁ =>
      rw [hs] at h
      obtain ⟨k, hk⟩ := passes_of_run w fs h
      exact ⟨k + 1, by rw [Step.after_run, step_above, hs]; exact hk⟩

end Machine

namespace Instruction.Succeeds

variable {i : Instruction}

theorem trades {a b : Activity} (h : i.Succeeds a b) :
    b.frame.position = (i.jump? a.frame.stack).getD a.frame.position ∧ i.takes ≤ a.frame.stack.length ∧
      Trades i.takes (i.takes + i.effect a.frame.stack).toNat 0 a.frame.stack b.frame.stack := by
  cases h with
  | proceeds hx => exact ⟨(trades_exec hx).1, takes_le hx, (trades_exec hx).2⟩
  | leaves hx => exact ⟨(trades_exec hx).1, takes_le hx, (trades_exec hx).2⟩
  | calls hx => exact ⟨(trades_exec hx).1, takes_le hx, (trades_exec hx).2.paid _⟩

theorem passes {m : Machine} {b : Activity} (hi : m.next? = some i) (h : i.Succeeds m.activity b) :
    (∃ v, m.step = Machine.deliver b.realm b.frame.purpose v m.callers) ∨ m.Passes ⟨b.realm, b.frame, m.callers⟩ := by
  have hstep := Machine.step_eq hi
  cases h with
  | proceeds hx =>
    rw [hx] at hstep
    exact .inr ⟨1, hstep⟩
  | leaves hx =>
    rw [hx] at hstep
    exact .inl ⟨_, hstep⟩
  | @calls _ a _ _ _ hx hrun =>
    rw [hx] at hstep
    obtain ⟨k, hk⟩ := Machine.passes_of_run a.frame m.callers hrun
    exact .inr ⟨k + 1, by rw [Step.after_run, hstep]; exact hk⟩

end Instruction.Succeeds

namespace Machine

/-- **The stack accounting is right.** An instruction that succeeds finds its operands and leaves as many values in
their place as its effect says, with nothing changed below them. It goes on behind itself or where it jumps to. Then
the unit returns, or the machine comes to the frame as it is then. -/
theorem stack_accounting {m : Machine} {i : Instruction} (hi : m.next? = some i) {b : Activity}
    (h : i.Succeeds m.activity b) :
    (b.frame.stack.length : Int) - m.frame.stack.length = i.effect m.frame.stack ∧
    (∃ operands results below, m.frame.stack = operands ++ below ∧ b.frame.stack = results ++ below ∧
      operands.length = i.takes ∧ (results.length : Int) = i.takes + i.effect m.frame.stack) ∧
    b.frame.position = (i.jump? m.frame.stack).getD (m.frame.position + 1) ∧
    ((∃ v, m.step = deliver b.realm b.frame.purpose v m.callers) ∨ m.Passes ⟨b.realm, b.frame, m.callers⟩) := by
  have htrades : Trades i.takes (i.takes + i.effect m.frame.stack).toNat 0 m.frame.stack b.frame.stack := h.trades.2.2
  have hzero := i.zero_le_effect m.frame.stack
  obtain ⟨operands, results, below, hbefore, hafter, hoperands, hresults⟩ := htrades.split h.trades.2.1
  have heffect : (results.length : Int) = i.takes + i.effect m.frame.stack := by omega
  refine ⟨?_, ⟨operands, results, below, hbefore, hafter, hoperands, heffect⟩, h.trades.1, h.passes hi⟩
  have hlength : b.frame.stack.length + i.takes = m.frame.stack.length + _ := htrades.length
  omega

/-- A call with one argument of a function that gives `true`, above one more operand. -/
def callOfTrue : Machine :=
  let inner : CodeUnit := { (default : CodeUnit) with instructions := #[⟨.loadTrue, none⟩, ⟨.ret, none⟩] }
  let outer : CodeUnit :=
    { (default : CodeUnit) with instructions := #[⟨.call, some (.call 1 0)⟩], constants := #[.string "f"] }
  ⟨⟨(Store.empty.addCallable (.closure inner [])).2, ⟨0⟩, .standard, 0, ""⟩,
    { Frame.start outer [] .undefined .program with stack := [.null, .undefined, .function ⟨0⟩, .number 3] }, []⟩

theorem stack_accounting_call : ∃ b, Instruction.Succeeds ⟨.call, some (.call 1 0)⟩ callOfTrue.activity b ∧
    (b.frame.stack.length : Int) - callOfTrue.frame.stack.length = -2 ∧ b.frame.position = 1 := by
  have h : Instruction.Succeeds ⟨.call, some (.call 1 0)⟩ callOfTrue.activity _ := .calls (n := 2) rfl rfl
  obtain ⟨hheight, -, hposition, -⟩ := stack_accounting rfl h
  exact ⟨_, h, hheight, hposition⟩

end Machine

end ScriptEngine
