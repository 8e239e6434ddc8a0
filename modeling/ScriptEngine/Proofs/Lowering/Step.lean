/-
Steps of lowering lay out code. `Lays` says of a step what it adds to the unit,
for any final builder that the unit's code is finished from: labels stand for
their final positions. The rules here follow the steps that lowering is put
together from.
-/
import ScriptEngine.Proofs.Code.Builder
import ScriptEngine.Proofs.Code.Layout

namespace ScriptEngine.Lowering

open Layout (Point Code Setting)

variable {b b' : Builder}

theorem bind_ok {x : Lowering α} {f : α → Lowering β} {st r} (h : (x >>= f) st = .ok r) :
    ∃ a st', x st = .ok (a, st') ∧ f a st' = .ok r := by
  change (x st >>= fun p => f p.1 p.2) = .ok r at h
  cases hx : x st with
  | error e =>
    rw [hx] at h
    cases h
  | ok p =>
    rw [hx] at h
    exact ⟨p.1, p.2, rfl, h⟩

theorem onBuilder_ok {f : Building α} {st r st'} (h : onBuilder f st = .ok (r, st')) :
    f st.builder = .ok r st'.builder ∧ st'.scopes = st.scopes := by
  cases hf : f st.builder with
  | ok =>
    simp only [onBuilder, hf] at h
    cases h
    exact ⟨rfl, rfl⟩
  | error =>
    simp only [onBuilder, hf] at h
    cases h

theorem onScopes_ok {f : ScopeArena → Except Fault (α × ScopeArena)} {st r st'}
    (h : onScopes f st = .ok (r, st')) :
    f st.scopes = .ok (r, st'.scopes) ∧ st'.builder = st.builder := by
  cases hf : f st.scopes with
  | ok =>
    simp only [onScopes, hf] at h
    cases h
    exact ⟨rfl, rfl⟩
  | error =>
    simp only [onScopes, hf] at h
    cases h

/-! ## The parts of a statement with handlers -/

/-- The handler of a statement; with a finalizer it stands in a region of its own. -/
def lowerHandlerCode (handler : Option (Identifier × Part)) (finalized : Bool) (region ctx : Context)
    (rethrow caught : Label) : Lowering Unit :=
  match handler with
  | some (param, body) => do
    mark caught
    if finalized then
      emitJump .enterTry rethrow
      lowerCatch param body region
      emit .leaveTry
    else lowerCatch param body ctx
  | none => pure ()

/-- The finalizer behind a normal end and behind an exception. -/
def lowerFinalizerCode (finalizer : Option Part) (ctx : Context) (done rethrow : Label) : Lowering Unit :=
  match finalizer with
  | some finalizer => do
    finalizer ctx
    emitJump .jump done
    mark rethrow
    let exception ← newTemporary
    emitWith .storeLocal (.temporary exception)
    finalizer ctx
    emitWith .loadLocal (.temporary exception)
    emit .throwValue
  | none => pure ()

theorem lowerAttempt_eq (block : Part) (handler : Option (Identifier × Part)) (finalizer : Option Part)
    (ctx : Context) :
    lowerAttempt block handler finalizer ctx = (do
      let done ← newLabel
      let rethrow ← newLabel
      let caught ← newLabel
      emitJump .enterTry (if handler.isSome then caught else rethrow)
      block (ctx.within (.attempt (finalizer.map fun f => f ctx)))
      emit .leaveTry
      let after ← newLabel
      emitJump .jump after
      lowerHandlerCode handler finalizer.isSome (ctx.within (.attempt (finalizer.map fun f => f ctx))) ctx
        rethrow caught
      mark after
      lowerFinalizerCode finalizer ctx done rethrow
      mark done) := by
  cases handler with
  | none => cases finalizer <;> simp [lowerAttempt, lowerHandlerCode, lowerFinalizerCode]
  | some handler =>
    obtain ⟨param, body⟩ := handler
    cases finalizer <;> simp [lowerAttempt, lowerHandlerCode, lowerFinalizerCode]

def here (b : Builder) : Point := ⟨b.size, b.temporaries⟩

structure Finished (B : Builder) (u : CodeUnit) : Prop where
  instructions : B.finish = .ok u.instructions
  constants : u.constants = B.constants
  functions : u.functions = B.functions
  slotNames : u.slotNames = B.slotNames

/-- An instruction that stays as it is makes closures of a function of the pool. -/
def Closes (b : Builder) (k : Nat) : Prop :=
  ∃ p, p < b.size ∧ b.instructions[p]? = some ⟨.closure, some (.function k)⟩ ∧ ∀ x ∈ b.fixups, x.1 ≠ p

theorem Closes.mono {k : Nat} (h : Closes b k) (hs : b.Sub b') : Closes b' k := by
  obtain ⟨p, hp, hi, hplain⟩ := h
  refine ⟨p, Nat.lt_of_lt_of_le hp hs.size, (hs.instructions p hp).trans hi, fun x hx hxp => ?_⟩
  exact hplain x ((hs.fixups x (hxp ▸ hp)).1 hx) hxp

/-- Every function that one builder has more than another is some function's code, and there are
closures of it. -/
def Gains (b b' : Builder) : Prop :=
  ∀ (k : Nat) v, b'.functions[k]? = some v → b.functions[k]? = some v ∨ v.OfFunction ∧ Closes b' k

theorem Gains.of_eq (h : b'.functions = b.functions) : Gains b b' := fun _ _ hv => .inl (h ▸ hv)

theorem Gains.trans {b'' : Builder} (h : Gains b b') (h' : Gains b' b'') (hs : b'.Sub b'') : Gains b b'' := by
  intro k v hv
  rcases h' k v hv with hv | hnew
  · exact (h k v hv).imp_right fun hold => ⟨hold.1, hold.2.mono hs⟩
  · exact .inr hnew

/-- Between two states a piece of code was laid out, with labels pending before and after it. -/
structure Laid (B : Builder) (st st' : State) (S S' : Label → Prop) (C : Code) : Prop where
  scopes : st.scopes.Extends st'.scopes
  ok : st'.builder.Ok
  pending : st'.builder.Pending S'
  sub : st.builder.Sub st'.builder
  settles : Builder.Settles S S' st.builder st'.builder
  gains : Gains st.builder st'.builder
  code : Builder.EndsIn S' st'.builder B → C (here st.builder) (here st'.builder)

/-- A step lays out a piece of code when the arena has at least the scopes of `a` and the
labels `S` are pending; afterwards the labels `S'` are. -/
def Lays (B : Builder) (a : ScopeArena) (S : Label → Prop) (x : Lowering Unit) (S' : Label → Prop)
    (C : Code) : Prop :=
  ∀ st st', a.Extends st.scopes → st.builder.Ok → st.builder.Pending S → x st = .ok ((), st') →
    Laid B st st' S S' C

namespace Lays

variable {B : Builder} {u : CodeUnit} {a : ScopeArena} {S S₁ S' : Label → Prop}
variable {x : Lowering Unit} {C : Code} {f : Nat → Lowering Unit}

/-! ## Putting steps together -/

theorem pure : Lays B a S (pure ()) S .nil := by
  intro st st' _ hok hp h
  cases h
  exact ⟨.refl _, hok, hp, .refl _, .of_labels_eq rfl, .of_eq rfl, fun _ => rfl⟩

theorem seq {y : Unit → Lowering Unit} {D : Code} (hx : Lays B a S x S₁ C) (hy : Lays B a S₁ (y ()) S' D) :
    Lays B a S (x >>= y) S' (C ++ D) := by
  intro st st' ha hok hp h
  obtain ⟨⟨⟩, mid, h1, h2⟩ := bind_ok h
  have l1 := hx st mid ha hok hp h1
  have l2 := hy mid st' (ha.trans l1.scopes) l1.ok l1.pending h2
  exact ⟨l1.scopes.trans l2.scopes, l2.ok, l2.pending, l1.sub.trans l2.sub, l1.settles.trans l1.sub l2.settles,
    l1.gains.trans l2.gains l2.sub, fun hB => ⟨here mid.builder, l1.code (hB.back l2.sub l2.settles), l1.sub.temporaries, l2.code hB⟩⟩

theorem weaken {D : Code} (hx : Lays B a S x S₁ C) (hS : ∀ l, S' l → S₁ l) (hC : ∀ p q, C p q → D p q) :
    Lays B a S x S' D := by
  intro st st' ha hok hp h
  have l := hx st st' ha hok hp h
  exact ⟨l.scopes, l.ok, fun l' hl' => l.pending l' (hS l' hl'), l.sub,
    ⟨l.settles.kept, fun l' hl' hs => l.settles.fewer l' hl' (hS l' hs)⟩, l.gains,
    fun hB => hC _ _ (l.code ⟨hB.ok, hB.sub, fun l' hl' hn => hB.lost l' hl' fun hs => hn (hS l' hs)⟩)⟩

theorem pending (hx : Lays B a S x S₁ C) (hS : ∀ l, S' l → S₁ l) : Lays B a S x S' C := hx.weaken hS fun _ _ h => h

theorem strengthen (hx : Lays B a S₁ x S' C) (hS : ∀ l, S₁ l → S l) : Lays B a S x S' C := by
  intro st st' ha hok hp h
  have l := hx st st' ha hok (fun l hl => hp l (hS l hl)) h
  exact ⟨l.scopes, l.ok, l.pending, l.sub, ⟨fun l' hl' hn => l.settles.kept l' hl' fun hs => hn (hS l' hs),
    fun l' hl' hs => hS l' (l.settles.fewer l' hl' hs)⟩, l.gains, l.code⟩

theorem mono {a' : ScopeArena} (hx : Lays B a S x S' C) (ha : a.Extends a') : Lays B a' S x S' C :=
  fun st st' ha' => hx st st' (ha.trans ha')

theorem throws {f : Fault} : Lays B a S (throw f) S' C := by
  intro st st' _ _ _ h
  cases h

theorem throws_bind {f : Fault} {g : α → Lowering Unit} : Lays B a S (throw f >>= g) S' C := by
  intro st st' _ _ _ h
  cases h

theorem seq_pure (hx : Lays B a S x S' C) : Lays B a S (x >>= fun _ => Pure.pure ()) S' C := by
  refine (hx.seq pure).weaken (fun _ h => h) ?_
  rintro p q ⟨m, h, -, rfl⟩
  exact h

theorem pure_seq (hx : Lays B a S x S' C) : Lays B a S x S' (.nil ++ C) :=
  hx.weaken (fun _ h => h) fun p _ h => ⟨p, rfl, Nat.le_refl _, h⟩

/-! ## Instructions -/

variable (hu : Finished B u)
include hu

theorem emit_aux {b : Builder} {i : Instruction} (hlt : ∀ x ∈ b.fixups, x.1 < b.size)
    (hB : Builder.EndsIn S (b.emit i) B) :
    Code.op u i (here b) (here (b.emit i)) := by
  refine ⟨?_, by simp [here, Builder.emit, Builder.size]⟩
  have hsize : b.size < (b.emit i).size := by simp [Builder.emit, Builder.size]
  have hplain : ∀ x ∈ B.fixups, x.1 ≠ b.size := by
    intro x hx hxi
    have hx' := (hB.sub.fixups x (by omega)).1 hx
    have := hlt x hx'
    omega
  rw [here, Builder.finish_plain hu.instructions hplain, hB.sub.instructions _ hsize]
  simp [Builder.emit, Builder.size]

theorem slot_aux {b : Builder} {name : String} {i : Instruction} (hok : b.Ok)
    (hB : Builder.EndsIn S (b.emitSlot name i) B) :
    u.slotNames[b.size]? = some name ∧ Code.op u i (here b) (here (b.emitSlot name i)) := by
  refine ⟨?_, emit_aux (b := { b with slotNames := b.slotNames.insert b.size name }) hu hok.fixup_lt hB⟩
  have hsize : b.size < (b.emitSlot name i).size := by simp [Builder.emitSlot, Builder.emit, Builder.size]
  rw [hu.slotNames, hB.sub.slotNames _ hsize]
  simp [Builder.emitSlot, Builder.emit]

theorem instruction (i : Instruction) : Lays B a S (modifyBuilder fun b => b.emit i) S (.op u i) := by
  intro st st' _ hok hp h
  cases h
  exact ⟨.refl _, hok.emit i, hp.of_labels_eq rfl, Builder.sub_emit _ i, .of_labels_eq rfl, .of_eq rfl,
    emit_aux hu hok.fixup_lt⟩

variable {c : Setting} (hc : c.unit = u)
include hc

theorem emit (op : Opcode) : Lays B a S (emit op) S (Layout.emit c op) := by
  rw [Layout.emit, hc]
  exact instruction hu ⟨op, none⟩

theorem emitWith (op : Opcode) (operand : Operand) :
    Lays B a S (emitWith op operand) S (Layout.emitWith c op operand) := by
  rw [Layout.emitWith, hc]
  exact instruction hu ⟨op, some operand⟩

theorem emitSlot (op : Opcode) (name : String) (d i : Nat) :
    Lays B a S (emitSlot op name (.slot d i)) S (Layout.slot c op name d i) := by
  intro st st' _ hok hp h
  cases h
  refine ⟨.refl _, hok.emitSlot name _, hp.of_labels_eq rfl, Builder.sub_emitSlot _ name _, .of_labels_eq rfl,
    .of_eq rfl, fun hB => ?_⟩
  rw [Layout.slot, Layout.emitWith, hc]
  exact slot_aux hu hok hB

theorem emitKept (name : String) : Lays B a S (emitKept name) S (Layout.kept c name) := by
  intro st st' _ hok hp h
  cases h
  refine ⟨.refl _, hok.emitSlot name _, hp.of_labels_eq rfl, Builder.sub_emitSlot _ name _, .of_labels_eq rfl,
    .of_eq rfl, fun hB => ?_⟩
  rw [Layout.kept, Layout.emit, hc]
  exact slot_aux hu hok hB

theorem boolean (b : Bool) :
    Lays B a S (Lowering.emit (if b then .loadTrue else .loadFalse)) S (Layout.boolean c b) := by
  intro st st' ha hok hp h
  have l := emit hu hc (if b then .loadTrue else .loadFalse) st st' ha hok hp h
  cases h
  refine ⟨l.scopes, l.ok, l.pending, l.sub, l.settles, l.gains, fun hB => ⟨?_, l.code hB⟩⟩
  have hsize : st.builder.size < (st.builder.emit ⟨if b then .loadTrue else .loadFalse, none⟩).size := by
    simp [Builder.emit, Builder.size]
  rw [hc, hu.slotNames, here, hB.sub.slotNames _ hsize]
  exact hok.noted _ (Nat.le_refl _)

theorem emitJump (op : Opcode) (l : Label) :
    Lays B a S (emitJump op l) S (Layout.jump c op (B.target l)) := by
  intro st st' _ hok hp h
  cases h
  refine ⟨.refl _, hok.emitJump op l, hp.emitJump op l, Builder.sub_emitJump _ op l, Builder.settles_emitJump _ op l,
    .of_eq rfl, fun hB => ⟨?_, ?_⟩⟩
  · have hlt : st.builder.size < (st.builder.emitJump op l).size := by
      simp [Builder.emitJump, Builder.emit, Builder.size]
    have hm : (st.builder.size, l) ∈ B.fixups := by
      rw [hB.sub.fixups _ hlt, Builder.fixups_emitJump]
      simp
    rw [hc, here, Builder.finish_jump hB.ok hu.instructions hm, hB.sub.instructions _ hlt]
    simp [Builder.emitJump, Builder.emit, Builder.size]
  · simp [here, Builder.emitJump, Builder.emit, Builder.size]

omit hu hc

/-! ## Labels and temporaries -/

theorem mark {l : Label} (hl : S l) : Lays B a S (mark l) (fun l' => l' ≠ l ∧ S l') (.mark (B.target l)) := by
  intro st st' _ hok hp h
  cases h
  have hl' := hp l hl
  refine ⟨.refl _, hok.mark l, hp.mark l, Builder.sub_mark hl'.2, Builder.settles_mark hl,
    .of_eq rfl, fun hB => ⟨rfl, ?_⟩⟩
  have := hB.sub.marked (Builder.position_mark_self hl'.1)
  simp [Builder.target, this, here]

theorem newLabel {f : Label → Lowering Unit} {C : Nat → Code}
    (hf : ∀ l, ¬ S l → Lays B a (fun l' => l' = l ∨ S l') (f l) S' (C (B.target l))) :
    Lays B a S (newLabel >>= f) S' (.label C) := by
  intro st st' ha hok hp h
  obtain ⟨l, mid, h1, h2⟩ := bind_ok h
  cases h1
  obtain ⟨hnew, hp'⟩ := hp.newLabel
  have l2 := hf _ hnew ⟨st.scopes, st.builder.newLabel.2⟩ st' ha hok.newLabel hp' h2
  exact ⟨l2.scopes, l2.ok, l2.pending, (Builder.sub_newLabel _).trans l2.sub,
    (Builder.settles_newLabel _).trans (Builder.sub_newLabel _) l2.settles, l2.gains,
    fun hB => ⟨_, l2.code hB⟩⟩

theorem emitJump_fixup (op : Opcode) (l : Label) :
    Lays B a S (Lowering.emitJump op l) S fun p _ => (p.pc, l) ∈ B.fixups := by
  intro st st' _ hok hp h
  cases h
  refine ⟨.refl _, hok.emitJump op l, hp.emitJump op l, Builder.sub_emitJump _ op l, Builder.settles_emitJump _ op l,
    .of_eq rfl, fun hB => ?_⟩
  have hlt : st.builder.size < (st.builder.emitJump op l).size := by
    simp [Builder.emitJump, Builder.emit, Builder.size]
  rw [here, hB.sub.fixups _ hlt, Builder.fixups_emitJump]
  simp

theorem unplaced (hu : Finished B u) {f : Label → Lowering Unit} {C : Label → Code} (hS : ∀ l, S' l → S l)
    (hf : ∀ l, ¬ S l → Lays B a (fun l' => l' = l ∨ S l') (f l) (fun l' => l' = l ∨ S' l') (C l))
    (hC : ∀ l p q, C l p q → ∃ i, (i, l) ∈ B.fixups) : Lays B a S (Lowering.newLabel >>= f) S' .never := by
  intro st st' ha hok hp h
  obtain ⟨l, mid, h1, h2⟩ := bind_ok h
  cases h1
  obtain ⟨hnew, hp'⟩ := hp.newLabel
  have l2 := hf _ hnew ⟨st.scopes, st.builder.newLabel.2⟩ st' ha hok.newLabel hp' h2
  have hset := (Builder.settles_newLabel (S := S) st.builder).trans (Builder.sub_newLabel _) l2.settles
  refine ⟨l2.scopes, l2.ok, fun l' hl' => l2.pending l' (.inr hl'), (Builder.sub_newLabel _).trans l2.sub,
    ⟨hset.kept, fun l' _ hs => hS l' hs⟩, l2.gains, fun hB => ?_⟩
  have hlost := l2.pending _ (.inl rfl)
  obtain ⟨i, hi⟩ := hC _ _ _ (l2.code ⟨hB.ok, hB.sub, fun l' hl' hn => hB.lost l' hl' fun hs => hn (.inr hs)⟩)
  exact Builder.position_of_finish hB.ok hu.instructions hi
    ((hB.lost _ hlost.1 fun hs => hnew (hS _ hs)).trans hlost.2)

theorem newTemporary {C : Nat → Code} (hf : ∀ t, Lays B a S (f t) S' (C t)) :
    Lays B a S (newTemporary >>= f) S' (.temporary C) := by
  intro st st' ha hok hp h
  obtain ⟨t, mid, h1, h2⟩ := bind_ok h
  obtain ⟨h1, hs⟩ := onBuilder_ok h1
  have hk := Builder.Request.granted (q := .temporary) h1
  obtain ⟨rfl, hb⟩ := Builder.Request.take_of_run (q := .temporary) rfl h1
  have l2 := hf _ mid st' (hs ▸ ha) (hk.ok hok) (hp.of_labels_eq hk.labels) h2
  refine ⟨hs ▸ l2.scopes, l2.ok, l2.pending, hk.sub.trans l2.sub,
    (Builder.Settles.of_labels_eq hk.labels).trans hk.sub l2.settles,
    (Gains.of_eq (by rw [hb]; rfl)).trans l2.gains l2.sub, fun hB => ?_⟩
  have hcode := l2.code hB
  rw [here, hb] at hcode
  exact hcode

/-! ## Constants -/

theorem pooled (q : Builder.Request) (hq : q.isInterned = true) {C : Nat → Code} (hf : ∀ k, Lays B a S (f k) S' (C k)) :
    Lays B a S (onBuilder q.run >>= f) S' fun p p' => ∃ k, q.Holds B k ∧ C k p p' := by
  intro st st' ha hok hp h
  obtain ⟨k, mid, h1, h2⟩ := bind_ok h
  obtain ⟨h1, hs⟩ := onBuilder_ok h1
  have hk := Builder.Request.granted h1
  have l2 := hf k mid st' (hs ▸ ha) (hk.ok hok) (hp.of_labels_eq hk.labels) h2
  refine ⟨hs ▸ l2.scopes, l2.ok, l2.pending, hk.sub.trans l2.sub,
    (Builder.Settles.of_labels_eq hk.labels).trans hk.sub l2.settles,
    (Gains.of_eq (hk.kept hq).2).trans l2.gains l2.sub, fun hB => ⟨k, ?_, ?_⟩⟩
  · exact hB.sub.holds (l2.sub.holds (hk.holds hok))
  · have hcode := l2.code hB
    rw [here, hk.size, (hk.kept hq).1] at hcode
    exact hcode

theorem stringConstant (s : String) {C : Nat → Code} (hf : ∀ k, Lays B a S (f k) S' (C k)) :
    Lays B a S (stringConstant s >>= f) S' fun p q => ∃ k, B.constants[k]? = some (.string s) ∧ C k p q :=
  pooled (.string s) rfl hf

theorem numberConstant (n : Float) {C : Nat → Code} (hf : ∀ k, Lays B a S (f k) S' (C k)) :
    Lays B a S (numberConstant n >>= f) S' fun p q =>
      ∃ k, B.constants[k]? = some (Meaning.literal n) ∧ C k p q :=
  pooled (.number n.toBits) rfl hf

end Lays

end ScriptEngine.Lowering
