/-
The height of the operand stack along lowering. Every label has one height that
it is meant for: the first jump to it brings that height, and so does the code
in front of it when it is placed. `Balanced` says so of a step of lowering, and
that only faults of the program end the step.
Main statement: `pushes_expr`, the code of an expression leaves one more value.
-/
import ScriptEngine.Proofs.Lowering.Step
import ScriptEngine.Proofs.Machine.Outline
import ScriptEngine.Proofs.Tree.Guarded

namespace ScriptEngine

/-- The fault lies in the program: its text is wrong, or it goes over a limit. -/
def Fault.OfProgram (f : Fault) : Prop := f.kind = .syntaxError ∨ f.kind = .rangeError

theorem Fault.OfProgram.visible {f : Fault} (h : f.OfProgram) : f.Visible := by
  obtain h | h := h <;> simp [Fault.Visible, h]

theorem Fault.ofProgram_source (cause : SyntaxFault) : Fault.OfProgram (.source cause) := .inl rfl

/-- The height of the stack that the jumps to a label bring, once there are any. -/
def Builder.heightAt (b : Builder) (l : Label) : Option Int := (b.labels[l.index]?).bind LabelState.depth

def Builder.Closed (b : Builder) : Prop := (b.instructions.back?.map fun i => i.opcode.leaves).getD false = true

namespace Lowering

variable {l l' : Label} {e : Int} {b : Builder}

/-- The labels that are still to be placed, with the height meant for each of them. -/
abbrev Aims := Label → Option Int

def Aims.add (D : Aims) (l : Label) (e : Int) : Aims := fun l' => if l' = l then some e else D l'

def Aims.remove (D : Aims) (l : Label) : Aims := fun l' => if l' = l then none else D l'

@[simp] theorem Aims.add_self (D : Aims) (l : Label) (e : Int) : D.add l e l = some e := by simp [add]

theorem Aims.add_ne (D : Aims) (e : Int) (h : l' ≠ l) : D.add l e l' = D l' := by simp [add, h]

theorem Aims.of_add_none {D : Aims} (h : D.add l e l' = none) : l ≠ l' ∧ D l' = none := by
  by_cases hl : l' = l
  · rw [hl, add_self] at h
    cases h
  · exact ⟨Ne.symm hl, (D.add_ne e hl).symm.trans h⟩

theorem Aims.remove_add {D : Aims} (e : Int) (h : D l = none) : (D.add l e).remove l = D := by
  funext l'
  by_cases hl : l' = l
  · simp [remove, hl, h]
  · simp [remove, add, hl]

theorem Aims.remove_add_ne (D : Aims) (e : Int) (h : l' ≠ l) : (D.add l e).remove l' = (D.remove l').add l e := by
  funext m
  by_cases hm : m = l
  · subst hm
    simp [remove, add, h.symm]
  · simp [remove, add, hm]

/-- Every jump goes to a label that stands or is still to be placed, and the height known of
a label to be placed is the one meant for it. The heights of the labels `K` are known. -/
structure Steady (D : Aims) (K : Label → Prop) (b : Builder) : Prop where
  placed : ∀ x ∈ b.fixups, (b.position x.2).isSome ∨ (D x.2).isSome
  there : ∀ {l e}, D l = some e → l.index < b.labels.size
  aimed : ∀ {l e e'}, D l = some e → b.heightAt l = some e' → e' = e
  known : ∀ {l}, K l → (b.heightAt l).isSome
  standing : ∀ {l}, K l → (b.position l).isSome ∨ (D l).isSome

/-- A step ends in a state with a property, or with a fault of the program. -/
def Yields (Q : State → Prop) : Except Fault (α × State) → Prop
  | .error f => f.OfProgram
  | .ok (_, st) => Q st

/-- What a step does to the labels that are to be placed, to those that are known, and to
the code. -/
def Balanced (D : Aims) (K : Label → Prop) (P : Builder → Prop) (x : Lowering Unit) (D' : Aims)
    (K' : Label → Prop) (P' : Builder → Prop) : Prop :=
  ∀ st, Steady D K st.builder → P st.builder → Yields (fun st' => Steady D' K' st'.builder ∧ P' st'.builder) (x st)

def height (d : Int) (b : Builder) : Prop := b.depth = d

/-- The two builders agree on the labels, the jumps and the height. -/
structure Same (b b' : Builder) : Prop where
  labels : b'.labels = b.labels
  fixups : b'.fixups = b.fixups
  depth : b'.depth = b.depth

def Silent (x : Lowering α) : Prop := ∀ st, Yields (fun st' => Same st.builder st'.builder) (x st)

theorem Steady.of_same {D K} {b' : Builder} (h : Steady D K b) (hs : Same b b') : Steady D K b' := by
  obtain ⟨hl, hf, -⟩ := hs
  refine ⟨fun x hx => ?_, fun hD => ?_, fun hD he => ?_, fun hK => ?_, fun hK => ?_⟩
  · rw [Builder.position, hl]
    exact h.placed x (hf ▸ hx)
  · rw [hl]
    exact h.there hD
  · rw [Builder.heightAt, hl] at he
    exact h.aimed hD he
  · rw [Builder.heightAt, hl]
    exact h.known hK
  · rw [Builder.position, hl]
    exact h.standing hK

theorem Yields.bind {x : Lowering α} {f : α → Lowering β} {Q R : State → Prop} {st : State} (hx : Yields Q (x st))
    (hf : ∀ a st', Q st' → Yields R (f a st')) : Yields R ((x >>= f) st) := by
  change Yields R (x st >>= fun p => f p.1 p.2)
  cases h : x st with
  | error e =>
    rw [h] at hx
    exact hx
  | ok p =>
    rw [h] at hx
    exact hf p.1 p.2 hx

namespace Silent

theorem pure (a : α) : Silent (pure a : Lowering α) := fun _ => ⟨rfl, rfl, rfl⟩

theorem throws {f : Fault} (hf : f.OfProgram) : Silent (throw f : Lowering α) := fun _ => hf

theorem request (q : Builder.Request) : Silent (onBuilder q.run) := by
  intro st
  have h := q.outcome st.builder
  rw [onBuilder]
  generalize q.run st.builder = r at h
  cases h with
  | found => exact ⟨rfl, rfl, rfl⟩
  | taken => cases q <;> exact ⟨rfl, rfl, rfl⟩
  | full => cases q <;> exact .inr rfl

theorem newTemporary : Silent newTemporary := request .temporary

theorem stringConstant (s : String) : Silent (stringConstant s) := request (.string s)

theorem numberConstant (n : Float) : Silent (numberConstant n) := request (.number n.toBits)

theorem addFunction (u : CodeUnit) : Silent (addFunction u) := request (.function u)

theorem resolve (ctx : Context) (name : String) : Silent (resolve ctx name) := fun _ => ⟨rfl, rfl, rfl⟩

theorem slotOperand (d i : Nat) : Silent (slotOperand d i) := by
  rw [Lowering.slotOperand]
  split
  · exact pure _
  · exact throws (.inr rfl)

theorem onScopes {f : ScopeArena → Except Fault (α × ScopeArena)} (hf : ∀ a e, f a = .error e → e.OfProgram) :
    Silent (onScopes f) := by
  intro st
  rw [Lowering.onScopes]
  cases h : f st.scopes with
  | error e => exact hf _ _ h
  | ok => exact ⟨rfl, rfl, rfl⟩

end Silent

namespace Balanced

variable {D D₁ D' : Aims} {K K₁ K' : Label → Prop} {P P₁ P' : Builder → Prop} {d e : Int} {l : Label}
variable {x : Lowering Unit}

/-! ## Putting steps together -/

theorem pure : Balanced D K P (pure ()) D K P := fun _ hs hp => ⟨hs, hp⟩

theorem seq {y : Unit → Lowering Unit} (hx : Balanced D K P x D₁ K₁ P₁) (hy : Balanced D₁ K₁ P₁ (y ()) D' K' P') :
    Balanced D K P (x >>= y) D' K' P' := fun st hs hp =>
  (hx st hs hp).bind fun _ st' h => hy st' h.1 h.2

theorem imp (hx : Balanced D K P x D' K₁ P₁) (hK : ∀ l, K' l → K₁ l) (hP : ∀ b, P₁ b → P' b) :
    Balanced D K P x D' K' P' := by
  intro st hs hp
  have h := hx st hs hp
  cases hr : x st with
  | error f =>
    rw [hr] at h
    exact h
  | ok p =>
    rw [hr] at h
    exact ⟨⟨h.1.placed, h.1.there, h.1.aimed, fun hk => h.1.known (hK _ hk), fun hk => h.1.standing (hK _ hk)⟩,
      hP _ h.2⟩

theorem forget (hx : Balanced D K P x D' K₁ P') (hK : ∀ l, K' l → K₁ l) : Balanced D K P x D' K' P' :=
  hx.imp hK fun _ h => h

theorem level (hx : Balanced D K P x D' K' (height e)) (he : e = d) : Balanced D K P x D' K' (height d) := he ▸ hx

theorem aims (hx : Balanced D K P x D₁ K' P') (hD : D₁ = D') : Balanced D K P x D' K' P' := hD ▸ hx

theorem throws {f : Fault} (hf : f.OfProgram) : Balanced D K P (throw f) D' K' P' := fun _ _ _ => hf

theorem optional {c : Bool} {y : Lowering Unit} (hx : Balanced D K P x D K P) (hy : Balanced D K P y D' K' P') :
    Balanced D K P (if c = true then y else do x; y) D' K' P' := by
  split
  · exact hy
  · exact hx.seq hy

theorem silent {x : Lowering α} {f : α → Lowering Unit} (hx : Silent x)
    (hf : ∀ a, Balanced D K (height d) (f a) D' K' P') : Balanced D K (height d) (x >>= f) D' K' P' :=
  fun st hs hp => (hx st).bind fun a st' h => hf a st' (hs.of_same h) (h.depth.trans hp)

/-! ## Instructions -/

theorem instruction (i : Instruction) :
    Balanced D K (height d) (modifyBuilder fun b => b.emit i) D K (height (d + i.stackEffect)) := by
  intro st hs hp
  refine ⟨⟨hs.placed, hs.there, hs.aimed, hs.known, hs.standing⟩, ?_⟩
  change st.builder.depth + i.stackEffect = _
  rw [hp]

theorem noted (name : String) (i : Instruction) :
    Balanced D K (height d) (modifyBuilder fun b => b.emitSlot name i) D K (height (d + i.stackEffect)) := by
  intro st hs hp
  refine ⟨⟨hs.placed, hs.there, hs.aimed, hs.known, hs.standing⟩, ?_⟩
  change st.builder.depth + _ = _
  rw [hp]

theorem closes {op : Opcode} (hop : op.leaves = true) : Balanced D K P (emit op) D K Builder.Closed := by
  intro st hs _
  refine ⟨⟨hs.placed, hs.there, hs.aimed, hs.known, hs.standing⟩, ?_⟩
  simp [Builder.Closed, Builder.emit, hop]

end Balanced

/-! ## Jumps -/

theorem heightAt_emitJump (op : Opcode) (hl : l.index < b.labels.size) :
    (b.emitJump op l).heightAt l' = if l' = l then
      some ((b.heightAt l).getD (b.depth + Instruction.takenEffect ⟨op, some (.target l.index)⟩))
    else b.heightAt l' := by
  simp only [Builder.heightAt, Builder.emitJump, Builder.emit, Array.getElem?_modify]
  by_cases h : l' = l
  · subst h
    simp only [if_true, Array.getElem?_eq_getElem hl, Option.map_some, Option.bind_some]
    cases (b.labels[l'.index]).depth <;> rfl
  · have hi : l.index ≠ l'.index := fun hi => h (by cases l; cases l'; simp_all)
    simp [hi, h]

theorem Steady.emitJump {D K} (h : Steady D K b) (op : Opcode) (hl : D l = some e)
    (he : b.depth + Instruction.takenEffect ⟨op, some (.target l.index)⟩ = e ∨ K l) :
    Steady D (fun l' => K l' ∨ l' = l) (b.emitJump op l) where
  placed x hx := by
    rw [Builder.fixups_emitJump] at hx
    rw [Builder.position_emitJump]
    obtain hx | hx := Array.mem_push.1 hx
    · exact h.placed x hx
    · subst hx
      exact .inr (by simp [hl])
  there hD := by simpa [Builder.emitJump, Builder.emit] using h.there hD
  aimed {l' e' e''} hD hh := by
    rw [heightAt_emitJump op (h.there hl)] at hh
    split at hh
    case isTrue hll =>
      subst hll
      obtain rfl := Option.some.inj (hD.symm.trans hl)
      simp only [Option.some.injEq] at hh
      obtain he | hk := he
      · cases hb : b.heightAt l' with
        | none => simp_all
        | some c =>
          rw [hb, Option.getD_some] at hh
          exact hh ▸ h.aimed hD hb
      · obtain ⟨c, hc⟩ := Option.isSome_iff_exists.1 (h.known hk)
        rw [hc, Option.getD_some] at hh
        exact hh ▸ h.aimed hD hc
    case isFalse => exact h.aimed hD hh
  known {l'} hk := by
    rw [heightAt_emitJump op (h.there hl)]
    split
    · rfl
    case isFalse hne => exact h.known (hk.resolve_right hne)
  standing {l'} hk := by
    rw [Builder.position_emitJump]
    obtain hk | rfl := hk
    · exact h.standing hk
    · exact .inr (by simp [hl])

theorem Steady.emitJump_back {D K} (h : Steady D K b) (op : Opcode) (hl : D l = none) (hk : K l) :
    Steady D K (b.emitJump op l) := by
  have hp : (b.position l).isSome := (h.standing hk).resolve_right (by simp [hl])
  have hsize : l.index < b.labels.size := Nat.lt_of_not_le fun hn => by
    simp [Builder.position, Array.getElem?_eq_none hn] at hp
  obtain ⟨c, hc⟩ := Option.isSome_iff_exists.1 (h.known hk)
  have hat : ∀ l', (b.emitJump op l).heightAt l' = b.heightAt l' := by
    intro l'
    rw [heightAt_emitJump op hsize]
    split
    case isTrue hll => rw [hll, hc, Option.getD_some]
    case isFalse => rfl
  refine ⟨fun x hx => ?_, fun hD => ?_, fun hD hh => ?_, fun hk => ?_, fun hk => ?_⟩
  · rw [Builder.fixups_emitJump] at hx
    rw [Builder.position_emitJump]
    obtain hx | hx := Array.mem_push.1 hx
    · exact h.placed x hx
    · subst hx
      exact .inl hp
  · simpa [Builder.emitJump, Builder.emit] using h.there hD
  · exact h.aimed hD (hat _ ▸ hh)
  · rw [hat]
    exact h.known hk
  · rw [Builder.position_emitJump]
    exact h.standing hk

theorem heightAt_mark (b : Builder) (hl : l.index < b.labels.size) :
    (b.mark l).heightAt l' = if l' = l then some ((b.heightAt l).getD b.depth) else b.heightAt l' := by
  simp only [Builder.heightAt, Builder.mark, Array.getElem?_modify]
  by_cases h : l' = l
  · subst h
    simp [Array.getElem?_eq_getElem hl]
  · have hi : l.index ≠ l'.index := fun hi => h (by cases l; cases l'; simp_all)
    simp [hi, h]

theorem Steady.mark {D K} (h : Steady D K b) (hl : D l = some e) :
    Steady (D.remove l) (fun l' => K l' ∨ l' = l) (b.mark l) where
  placed x hx := by
    by_cases hxl : x.2 = l
    · exact .inl (by rw [hxl, Builder.position_mark_self (h.there hl)]; rfl)
    · rw [Builder.position_mark_ne hxl]
      simpa [Aims.remove, hxl] using h.placed x hx
  there hD := by
    simp only [Aims.remove] at hD
    split at hD
    · cases hD
    · simpa [Builder.mark] using h.there hD
  aimed {l' e' e''} hD hh := by
    simp only [Aims.remove] at hD
    split at hD
    · cases hD
    case isFalse hne =>
      rw [heightAt_mark b (h.there hl), if_neg hne] at hh
      exact h.aimed hD hh
  known {l'} hk := by
    rw [heightAt_mark b (h.there hl)]
    split
    · rfl
    case isFalse hne => exact h.known (hk.resolve_right hne)
  standing {l'} hk := by
    by_cases hll : l' = l
    · exact .inl (by rw [hll, Builder.position_mark_self (h.there hl)]; rfl)
    · rw [Builder.position_mark_ne hll]
      simpa [Aims.remove, hll] using h.standing (hk.resolve_right hll)

theorem Steady.newLabel {D K} (h : Steady D K b) (e : Int) :
    Steady (D.add b.newLabel.1 e) K b.newLabel.2 ∧ D b.newLabel.1 = none := by
  have hnew : D b.newLabel.1 = none := by
    cases hD : D b.newLabel.1 with
    | none => rfl
    | some c => exact absurd (h.there hD) (by simp [Builder.newLabel])
  have hat : ∀ l, b.newLabel.2.heightAt l = b.heightAt l := by
    intro l
    simp only [Builder.heightAt, Builder.newLabel, Array.getElem?_push]
    split
    case isTrue hl => simp [hl]
    case isFalse => rfl
  have hmore : ∀ {l}, (D l).isSome → (D.add b.newLabel.1 e l).isSome := by
    intro l hl
    rw [Aims.add]
    split
    · rfl
    · exact hl
  refine ⟨⟨fun x hx => ?_, fun {l c} hD => ?_, fun {l c c'} hD hh => ?_, fun {l} hk => ?_, fun {l} hk => ?_⟩, hnew⟩
  · rw [Builder.position_newLabel]
    exact (h.placed x hx).imp_right hmore
  · by_cases hl : l = b.newLabel.1
    · subst hl
      simp [Builder.newLabel]
    · rw [Aims.add_ne D e hl] at hD
      have := h.there hD
      simp only [Builder.newLabel, Array.size_push]
      omega
  · rw [hat] at hh
    by_cases hl : l = b.newLabel.1
    · subst hl
      simp [Builder.heightAt, Builder.newLabel] at hh
    · rw [Aims.add_ne D e hl] at hD
      exact h.aimed hD hh
  · rw [hat]
    exact h.known hk
  · rw [Builder.position_newLabel]
    exact (h.standing hk).imp_right hmore

theorem Steady.newLabel_idle {D K} (h : Steady D K b) : Steady D K b.newLabel.2 := by
  obtain ⟨h', hnew⟩ := h.newLabel 0
  have hold : ∀ {l c}, D l = some c → D.add b.newLabel.1 0 l = some c := by
    intro l c hl
    rw [Aims.add_ne D 0 (fun he => by rw [he, hnew] at hl; cases hl), hl]
  refine ⟨fun x hx => ?_, fun hD => h'.there (hold hD), fun hD hh => h'.aimed (hold hD) hh,
    fun hk => h'.known hk, fun hk => ?_⟩
  · rw [Builder.position_newLabel]
    exact h.placed x hx
  · rw [Builder.position_newLabel]
    exact h.standing hk

namespace Balanced

variable {D D₁ D' : Aims} {K K₁ K' : Label → Prop} {P P₁ P' : Builder → Prop} {d e : Int} {l : Label}

theorem emitJump (op : Opcode) (hl : D l = some e)
    (he : d + Instruction.takenEffect ⟨op, some (.target l.index)⟩ = e ∨ K l) :
    Balanced D K (height d) (emitJump op l) D (fun l' => K l' ∨ l' = l)
      (height (d + Instruction.stackEffect ⟨op, some (.target l.index)⟩)) := by
  intro st hs hp
  refine ⟨hs.emitJump op hl (hp ▸ he), ?_⟩
  change st.builder.depth + _ = _
  rw [hp]

theorem leaves (hl : D l = some e) (he : d = e ∨ K l) :
    Balanced D K (height d) (Lowering.emitJump .jump l) D (fun l' => K l' ∨ l' = l) Builder.Closed := by
  intro st hs hp
  refine ⟨hs.emitJump .jump hl ?_, ?_⟩
  · rw [hp]
    simpa [Instruction.takenEffect] using he
  · simp [Builder.Closed, Builder.emitJump, Builder.emit, Opcode.leaves]

theorem mark (hl : D l = some e) :
    Balanced D K (height e) (mark l) (D.remove l) (fun l' => K l' ∨ l' = l) (height e) := by
  intro st hs hp
  refine ⟨hs.mark hl, ?_⟩
  simp only [height] at hp ⊢
  simp only [Builder.mark]
  split
  · cases hk : (st.builder.labels[l.index]?).bind LabelState.depth with
    | none => exact hp
    | some c => exact hs.aimed hl hk
  · exact hp

theorem mark_closed (hl : D l = some e) (hk : K l) :
    Balanced D K Builder.Closed (Lowering.mark l) (D.remove l) K (height e) := by
  intro st hs hp
  have hs' := hs.mark hl
  refine ⟨⟨hs'.placed, hs'.there, hs'.aimed, fun hk => hs'.known (.inl hk), fun hk => hs'.standing (.inl hk)⟩, ?_⟩
  obtain ⟨c, hc⟩ := Option.isSome_iff_exists.1 (hs.known hk)
  have he := hs.aimed hl hc
  rw [Builder.heightAt] at hc
  rw [Builder.Closed] at hp
  simp [height, Builder.mark, hp, hc, he]

theorem jumpIf {op : Opcode} (hop : op = .jumpIfFalse ∨ op = .jumpIfTrue) (hl : D l = some d) :
    Balanced D K (height (d + 1)) (Lowering.emitJump op l) D (fun l' => K l' ∨ l' = l) (height d) := by
  obtain rfl | rfl := hop <;>
    exact (emitJump _ hl (.inl (Int.add_neg_cancel_right d 1))).level (Int.add_neg_cancel_right d 1)

theorem goto (hl : D l = some d) :
    Balanced D K (height d) (Lowering.emitJump .jump l) D (fun l' => K l' ∨ l' = l) (height d) :=
  (emitJump .jump hl (.inl (Int.add_zero d))).level (Int.add_zero d)

theorem enterTry (hl : D l = some (d + 1)) :
    Balanced D K (height d) (Lowering.emitJump .enterTry l) D (fun l' => K l' ∨ l' = l) (height d) :=
  (emitJump .enterTry hl (.inl rfl)).level (Int.add_zero d)

theorem back (op : Opcode) (hl : D l = none) (hk : K l) :
    Balanced D K (height d) (Lowering.emitJump op l) D K
      (height (d + Instruction.stackEffect ⟨op, some (.target l.index)⟩)) := by
  intro st hs hp
  refine ⟨hs.emitJump_back op hl hk, ?_⟩
  change st.builder.depth + _ = _
  rw [hp]

theorem place (hl : D l = none) : Balanced (D.add l e) K (height e) (Lowering.mark l) D K (height e) := by
  have h : Balanced (D.add l e) K (height e) (Lowering.mark l) _ K (height e) :=
    (mark (K := K) (D.add_self l e)).forget fun _ => .inl
  rwa [Aims.remove_add _ hl] at h

theorem newLabel {f : Label → Lowering Unit} (e : Int)
    (hf : ∀ l, D l = none → Balanced (D.add l e) K (height d) (f l) D' K' P') :
    Balanced D K (height d) (newLabel >>= f) D' K' P' := by
  intro st hs hp
  obtain ⟨hs', hnew⟩ := hs.newLabel e
  exact hf _ hnew ⟨st.scopes, st.builder.newLabel.2⟩ hs' hp

theorem idleLabel {f : Label → Lowering Unit} (hf : ∀ l, Balanced D K (height d) (f l) D' K' P') :
    Balanced D K (height d) (Lowering.newLabel >>= f) D' K' P' := fun st hs hp =>
  hf _ ⟨st.scopes, st.builder.newLabel.2⟩ hs.newLabel_idle hp

end Balanced

/-! ## Straight code -/

/-- A step leaves the stack `k` higher, whatever labels are to be placed. -/
def Pushes (k : Int) (x : Lowering Unit) : Prop := ∀ D K d, Balanced D K (height d) x D K (height (d + k))

namespace Pushes

variable {j k : Int}

theorem pure : Pushes 0 (pure ()) := fun _ _ d => Balanced.pure.level (Int.add_zero d).symm

theorem seq {x : Lowering Unit} {y : Unit → Lowering Unit} (hx : Pushes j x) (hy : Pushes k (y ())) :
    Pushes (j + k) (x >>= y) := fun D K d =>
  ((hx D K d).seq (hy D K (d + j))).level (Int.add_assoc d j k)

theorem same {x : Lowering Unit} (hx : Pushes 0 x) {D K d} : Balanced D K (height d) x D K (height d) :=
  (hx D K d).level (Int.add_zero d)

theorem drop {x : Lowering Unit} (hx : Pushes (-1) x) {D K d} : Balanced D K (height (d + 1)) x D K (height d) :=
  (hx D K (d + 1)).level (Int.add_neg_cancel_right d 1)

theorem of {x : Lowering Unit} (hx : Pushes j x) (h : j = k) : Pushes k x := h ▸ hx

theorem silent {x : Lowering α} {f : α → Lowering Unit} (hx : Silent x) (hf : ∀ a, Pushes k (f a)) :
    Pushes k (x >>= f) := fun D K d => Balanced.silent hx fun a => hf a D K d

theorem throws {f : Fault} (hf : f.OfProgram) : Pushes k (throw f) := fun _ _ _ => Balanced.throws hf

theorem throws_bind {f : Fault} {g : α → Lowering Unit} (hf : f.OfProgram) : Pushes k (throw f >>= g) :=
  fun _ _ _ _ _ _ => hf

theorem emit (op : Opcode) : Pushes (Instruction.stackEffect ⟨op, none⟩) (emit op) := fun _ _ _ =>
  Balanced.instruction ⟨op, none⟩

theorem emitWith (op : Opcode) (operand : Operand) :
    Pushes (Instruction.stackEffect ⟨op, some operand⟩) (emitWith op operand) := fun _ _ _ =>
  Balanced.instruction ⟨op, some operand⟩

theorem emitSlot (op : Opcode) (name : String) (operand : Operand) :
    Pushes (Instruction.stackEffect ⟨op, some operand⟩) (emitSlot op name operand) := fun _ _ _ =>
  Balanced.noted name ⟨op, some operand⟩

theorem emitKept (name : String) : Pushes 1 (emitKept name) := fun _ _ _ => Balanced.noted name ⟨.loadFalse, none⟩

theorem load (ctx : Context) (name : String) : Pushes 1 (load ctx name) := by
  refine silent (.resolve ctx name) fun r => ?_
  cases r with
  | slot d i => exact silent (.slotOperand d i) fun o => emitSlot .loadSlot name o
  | byName => exact silent (.stringConstant name) fun k => emitWith .loadName (.property k)

theorem store (ctx : Context) (name : String) : Pushes 0 (store ctx name) := by
  refine silent (.resolve ctx name) fun r => ?_
  cases r with
  | slot d i => exact silent (.slotOperand d i) fun o => emitSlot .storeSlot name o
  | byName =>
    refine silent (.stringConstant name) fun k => ?_
    cases ctx.strict
    · exact emitWith .storeName (.property k)
    · exact emitWith .storeNameStrict (.property k)

theorem pushString (s : String) : Pushes 1 (pushString s) :=
  silent (.stringConstant s) fun k => emitWith .loadConst (.constant k)

theorem binary (op : BinaryOp) : Pushes (-1) (Lowering.emit (binaryOpcode op)) := by
  cases op <;> exact emit _

end Pushes

/-- Functions with a property are lowered, or there is a fault in the program. -/
def Admits (inner : FunctionLowering) (P : FunctionTree → Prop) : Prop :=
  ∀ f, P f → ∀ isExpression scope strict a e, inner f isExpression scope strict a = .error e → e.OfProgram

/-! ## Expressions -/

/-- The code of what an expression refers to leaves the object and the key. -/
def Reference.Pushes : Reference → Prop
  | .variable _ => True
  | .property object key => Lowering.Pushes 1 object ∧ Lowering.Pushes 1 key
  | .value => True

section

variable {inner : FunctionLowering} {P : FunctionTree → Prop}

theorem pushes_closure (hi : Admits inner P) (ctx : Context) {f : FunctionTree} (hf : P f) (isExpression : Bool) :
    Pushes 1 (pushClosure inner ctx f isExpression) :=
  .silent (.onScopes fun a e h => hi f hf isExpression ctx.scope ctx.strict a e h) fun u =>
    .silent (.addFunction u) fun k => .emitWith .closure (.function k)

variable (ctx : Context) {r : Reference} {value : Lowering Unit}

theorem pushes_typeof (r : Reference) (hv : Pushes 1 value) : Pushes 1 (lowerTypeof ctx r value) := by
  match r with
  | .variable name =>
    refine .silent (.resolve ctx name) fun s => ?_
    cases s with
    | slot => exact .of ((Pushes.load ctx name).seq (.emit .typeOf)) rfl
    | byName =>
      exact .silent (.stringConstant name) fun k =>
        .of ((Pushes.emitWith .loadNameOrUndefined (.property k)).seq (.emit .typeOf)) rfl
  | .property _ _ => exact .of (hv.seq (.emit .typeOf)) rfl
  | .value => exact .of (hv.seq (.emit .typeOf)) rfl

theorem pushes_delete (hr : r.Pushes) (hv : Pushes 1 value) : Pushes 1 (lowerDelete ctx r value) := by
  match r, hr with
  | .variable name, _ =>
    refine .silent (.resolve ctx name) fun s => ?_
    cases s with
    | slot => exact .emitKept name
    | byName => exact .silent (.stringConstant name) fun k => .emitWith .deleteName (.property k)
  | .property _ _, hr => exact .of (hr.1.seq (hr.2.seq (.emit .deleteProperty))) rfl
  | .value, _ => exact .of (hv.seq ((Pushes.emit .pop).seq (.emit .loadTrue))) rfl

theorem pushes_callee (hr : r.Pushes) (hv : Pushes 1 value) : Pushes 2 (lowerCallee ctx r value) := by
  match r, hr with
  | .variable name, _ =>
    refine .silent (.resolve ctx name) fun s => ?_
    cases s with
    | slot => exact .of ((Pushes.load ctx name).seq (.emit .loadUndefined)) rfl
    | byName => exact .silent (.stringConstant name) fun k => .emitWith .loadNameWithThis (.property k)
  | .property _ _, hr =>
    exact .of (hr.1.seq ((Pushes.emit .dup).seq (hr.2.seq ((Pushes.emit .getProperty).seq (.emit .swap))))) rfl
  | .value, _ => exact .of (hv.seq (.emit .loadUndefined)) rfl

theorem pushes_step (op : UpdateOp) : Pushes (-1) (emit (match op with
    | .increment => Opcode.add
    | .decrement => Opcode.sub)) := by
  cases op <;> exact .emit _

theorem pushes_update (op : UpdateOp) (before : Bool) (hr : r.Pushes) : Pushes 1 (lowerUpdate ctx op before r) := by
  refine .silent (.numberConstant 1.0) fun one => ?_
  have hone := Pushes.emitWith .loadConst (.constant one)
  match r, hr with
  | .variable name, _ =>
    cases before
    · exact .of ((Pushes.load ctx name).seq ((Pushes.emit .toNumber).seq ((Pushes.emit .dup).seq (hone.seq
        ((pushes_step op).seq ((Pushes.store ctx name).seq (.emit .pop))))))) rfl
    · exact .of ((Pushes.load ctx name).seq ((Pushes.emit .toNumber).seq (hone.seq
        ((pushes_step op).seq ((Pushes.store ctx name).seq .pure))))) rfl
  | .property _ _, hr =>
    refine .of (hr.1.seq (hr.2.seq ((Pushes.emit .dup2).seq ((Pushes.emit .getProperty).seq
      ((Pushes.emit .toNumber).seq (?_ : Pushes (-2) _)))))) rfl
    cases before
    · refine .silent .newTemporary fun old => ?_
      exact .of ((Pushes.emit .dup).seq ((Pushes.emitWith .storeLocal (.temporary old)).seq (hone.seq
        ((pushes_step op).seq ((Pushes.emit .setProperty).seq ((Pushes.emit .pop).seq
          (.emitWith .loadLocal (.temporary old)))))))) rfl
    · exact .of (hone.seq ((pushes_step op).seq (.emit .setProperty))) rfl
  | .value, _ => exact .throws (.inl rfl)

theorem pushes_assignment (op : Option BinaryOp) (hr : r.Pushes) (hv : Pushes 1 value) :
    Pushes 1 (lowerAssignment ctx op r value) := by
  match r, hr with
  | .variable name, _ =>
    cases op with
    | none => exact .of (hv.seq (.store ctx name)) rfl
    | some op => exact .of ((Pushes.load ctx name).seq (hv.seq ((Pushes.binary op).seq (.store ctx name)))) rfl
  | .property _ _, hr =>
    cases op with
    | none => exact .of (hr.1.seq (hr.2.seq (hv.seq (.emit .setProperty)))) rfl
    | some op =>
      exact .of (hr.1.seq (hr.2.seq ((Pushes.emit .dup2).seq ((Pushes.emit .getProperty).seq (hv.seq
        ((Pushes.binary op).seq (.emit .setProperty))))))) rfl
  | .value, _ => exact .throws (.inl rfl)

theorem pushes_argumentCount {n : Nat} {k : Int} {f : Nat → Lowering Unit} (hf : Pushes k (f n)) :
    Pushes k (argumentCount n >>= f) := by
  rw [argumentCount]
  split
  · exact hf
  · exact .throws_bind (.inr rfl)

theorem pushes_named (name : String) {y : Unit → Lowering Unit} {k : Int} (hy : Pushes k (y ())) :
    Pushes (-1 + k) (stringConstant name >>= fun key => emitWith .defineProperty (.property key) >>= y) :=
  .silent (.stringConstant name) fun key => (Pushes.emitWith .defineProperty (.property key)).seq hy

theorem pushes_logical (op : LogicalOp) {x y : Lowering Unit} (hx : Pushes 1 x) (hy : Pushes 1 y) :
    Pushes 1 (do
      let done ← newLabel
      x
      emitJump (match op with
        | .and => .logicalAnd
        | .or => .logicalOr) done
      y
      mark done) := by
  intro D K d
  refine .newLabel (d + 1) fun done hnew => (hx _ K d).seq ?_
  have hjump : Balanced (D.add done (d + 1)) K (height (d + 1)) (emitJump (match op with
      | .and => Opcode.logicalAnd
      | .or => Opcode.logicalOr) done) (D.add done (d + 1)) K (height d) := by
    cases op <;> exact ((Balanced.emitJump _ (D.add_self done _) (.inl (Int.add_zero _))).forget
      fun _ => .inl).level (Int.add_neg_cancel_right d 1)
  exact hjump.seq ((hy _ K d).seq (.place hnew))

theorem pushes_conditional {test x y : Lowering Unit} (ht : Pushes 1 test) (hx : Pushes 1 x) (hy : Pushes 1 y) :
    Pushes 1 (do
      let otherwise ← newLabel
      let done ← newLabel
      test
      emitJump .jumpIfFalse otherwise
      x
      emitJump .jump done
      mark otherwise
      y
      mark done) := by
  intro D K d
  refine .newLabel d fun otherwise hother => .newLabel (d + 1) fun done hdone => ?_
  obtain ⟨hne, hdone⟩ := Aims.of_add_none hdone
  have hboth : (D.add otherwise d).add done (d + 1) otherwise = some d := by
    rw [Aims.add_ne _ _ hne, Aims.add_self]
  refine (ht _ K d).seq ((Balanced.jumpIf (.inl rfl) hboth).seq ((hx _ _ d).seq
    ((Balanced.leaves (Aims.add_self _ _ _) (.inl rfl)).seq
      ((Balanced.mark_closed hboth (.inl (.inr rfl))).seq ((hy _ _ d).seq ?_)))))
  rw [Aims.remove_add_ne _ _ hne, Aims.remove_add _ hother]
  exact (Balanced.place hdone).forget fun _ h => .inl (.inl h)

end

mutual

theorem pushes_expr {inner : FunctionLowering} {P : FunctionTree → Prop} (hi : Admits inner P) (ctx : Context) :
    ∀ e : Expr, e.Holds P → Pushes 1 (lowerExpr inner ctx e)
  | .number n, _ => .silent (.numberConstant n) fun k => .emitWith .loadConst (.constant k)
  | .string s, _ => .pushString s
  | .boolean b, _ => by
    rw [lowerExpr]
    cases b <;> exact .emit _
  | .null, _ => .emit .loadNull
  | .identifier id, _ => .load ctx id.name
  | .this, _ => .emit .loadThis
  | .array elements, h => by
    rw [lowerExpr]
    split
    · exact .of ((Pushes.emitWith .newArray _).seq (pushes_elements hi ctx elements 0 h)) rfl
    · exact .throws_bind (.inr rfl)
  | .object properties, h => .of ((Pushes.emit .newObject).seq (pushes_properties hi ctx properties h)) rfl
  | .function f, h => pushes_closure hi ctx h true
  | .grouping e, h => pushes_expr hi ctx e h
  | .unary op e, h => by
    have he := pushes_expr hi ctx e h
    have hr := pushes_reference hi ctx e h
    cases op <;> rw [lowerExpr]
    case minus => exact .of (he.seq (.emit .neg)) rfl
    case plus => exact .of (he.seq (.emit .toNumber)) rfl
    case logicalNot => exact .of (he.seq (.emit .not)) rfl
    case bitwiseNot => exact .of (he.seq (.emit .bitNot)) rfl
    case typeof => exact pushes_typeof ctx _ he
    case void => exact .of (he.seq ((Pushes.emit .pop).seq (.emit .loadUndefined))) rfl
    case delete => exact pushes_delete ctx hr he
  | .update op before e, h => pushes_update ctx op before (pushes_reference hi ctx e h)
  | .binary op l r, h => .of ((pushes_expr hi ctx l h.1).seq ((pushes_expr hi ctx r h.2).seq (.binary op))) rfl
  | .logical op l r, h => by
    have hl := pushes_expr hi ctx l h.1
    have hr := pushes_expr hi ctx r h.2
    cases op <;> rw [lowerExpr]
    case and => exact pushes_logical .and hl hr
    case or => exact pushes_logical .or hl hr
  | .assignment op target value, h =>
    pushes_assignment ctx op (pushes_reference hi ctx target h.1) (pushes_expr hi ctx value h.2)
  | .conditional test a b, h =>
    pushes_conditional (pushes_expr hi ctx test h.1) (pushes_expr hi ctx a h.2.1)
      (pushes_expr hi ctx b h.2.2)
  | .sequence items, h => pushes_sequence hi ctx items h
  | .call callee arguments, h => by
    have hcallee := pushes_callee ctx (pushes_reference hi ctx callee h.1) (pushes_expr hi ctx callee h.1)
    refine .of (hcallee.seq (pushes_arguments hi ctx arguments h.2 (k := -((Expr.argumentList arguments).length + 1))
      (.silent (.stringConstant _) fun k => ?_))) (by omega)
    cases callee.callsEval <;> exact .emitWith _ _
  | .member object property, h =>
    .of ((pushes_expr hi ctx object h).seq ((Pushes.pushString _).seq (.emit .getProperty))) rfl
  | .index object key, h =>
    .of ((pushes_expr hi ctx object h.1).seq ((pushes_expr hi ctx key h.2).seq (.emit .getProperty))) rfl
  | .new (.call callee arguments), h =>
    .of ((pushes_expr hi ctx callee h.1).seq (pushes_arguments hi ctx arguments h.2
      (.emitWith .new (.count _)))) (by simp only [Instruction.stackEffect, Instruction.argumentCount]; omega)
  | .new e, h => by
    have he := pushes_expr hi ctx e h
    have hnew : Pushes 1 (lowerExpr inner ctx e >>= fun _ => emitWith .new (.count 0)) :=
      .of (he.seq (.emitWith .new (.count 0))) rfl
    cases e
    case call callee arguments =>
      exact .of ((pushes_expr hi ctx callee h.1).seq (pushes_arguments hi ctx arguments h.2
        (.emitWith .new (.count _)))) (by simp only [Instruction.stackEffect, Instruction.argumentCount]; omega)
    all_goals exact hnew

theorem pushes_reference {inner : FunctionLowering} {P : FunctionTree → Prop} (hi : Admits inner P) (ctx : Context) :
    ∀ e : Expr, e.Holds P → (reference inner ctx e).Pushes
  | .grouping e, h => pushes_reference hi ctx e h
  | .identifier id, _ => trivial
  | .member object property, h => ⟨pushes_expr hi ctx object h, .pushString property.name⟩
  | .index object key, h => ⟨pushes_expr hi ctx object h.1, pushes_expr hi ctx key h.2⟩
  | .number _, _ | .string _, _ | .boolean _, _ | .null, _ | .this, _ | .array _, _ | .object _, _ | .function _, _
  | .unary _ _, _ | .update _ _ _, _ | .binary _ _ _, _ | .logical _ _ _, _ | .assignment _ _ _, _
  | .conditional _ _ _, _ | .sequence _, _ | .call _ _, _ | .new _, _ => trivial

theorem pushes_sequence {inner : FunctionLowering} {P : FunctionTree → Prop} (hi : Admits inner P) (ctx : Context) :
    ∀ es : List Expr, itemsHold P es → Pushes 1 (lowerSequence inner ctx es)
  | [], _ => .throws (.inl rfl)
  | [e], h => pushes_expr hi ctx e h.1
  | e :: e' :: es, h => by
    rw [lowerSequence]
    · exact .of ((pushes_expr hi ctx e h.1).seq ((Pushes.emit .pop).seq (pushes_sequence hi ctx (e' :: es) h.2))) rfl
    · simp

theorem pushes_elements {inner : FunctionLowering} {P : FunctionTree → Prop} (hi : Admits inner P) (ctx : Context) :
    ∀ (es : List (Option Expr)) (i : Nat), elementsHold P es → Pushes 0 (lowerElements inner ctx es i)
  | [], _, _ => .pure
  | none :: es, i, h => pushes_elements hi ctx es (i + 1) h.2
  | some e :: es, i, h =>
    .of ((pushes_expr hi ctx e h.1).seq (pushes_named _ (pushes_elements hi ctx es (i + 1) h.2))) rfl

theorem pushes_properties {inner : FunctionLowering} {P : FunctionTree → Prop} (hi : Admits inner P) (ctx : Context) :
    ∀ ps : List (String × Expr), propertiesHold P ps → Pushes 0 (lowerProperties inner ctx ps)
  | [], _ => .pure
  | (name, e) :: ps, h => .of ((pushes_expr hi ctx e h.1).seq (pushes_named _ (pushes_properties hi ctx ps h.2))) rfl

theorem pushes_arguments {inner : FunctionLowering} {P : FunctionTree → Prop} (hi : Admits inner P) (ctx : Context) :
    ∀ (arguments : Option Expr), optionHolds P arguments → ∀ {k : Int} {f : Nat → Lowering Unit},
      Pushes k (f (Expr.argumentList arguments).length) →
      Pushes ((Expr.argumentList arguments).length + k) (lowerArguments inner ctx arguments >>= f)
  | none, _, k, f, hf => .of hf (Int.zero_add k).symm
  | some (.sequence items), h, k, f, hf => by
    rw [lowerArguments, bind_assoc]
    exact (pushes_items hi ctx items h).seq (pushes_argumentCount hf)
  | some e, h, k, f, hf => by
    have he := pushes_expr hi ctx e h
    cases e
    case sequence items =>
      rw [lowerArguments, bind_assoc]
      exact (pushes_items hi ctx items h).seq (pushes_argumentCount hf)
    all_goals
      rw [lowerArguments, bind_assoc]
      · exact he.seq hf
      all_goals simp

theorem pushes_items {inner : FunctionLowering} {P : FunctionTree → Prop} (hi : Admits inner P) (ctx : Context) :
    ∀ es : List Expr, itemsHold P es → Pushes es.length (lowerItems inner ctx es)
  | [], _ => .pure
  | e :: es, h => by
    refine .of ((pushes_expr hi ctx e h.1).seq (pushes_items hi ctx es h.2)) ?_
    simp only [List.length_cons]
    omega

end

end Lowering

end ScriptEngine
