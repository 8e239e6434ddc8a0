/-
What is open in a frame as it runs. A frame that stands where the code has a
shape has these constructs open (`Frame.Fits`), with their records and handlers as
entries; a step opens entries at its own position or closes the innermost ones
(`Entry.Shift`), whichever frame is running. Main statement: `Machine.Stands.leads`.
-/
import ScriptEngine.Proofs.Machine.Conduct

namespace ScriptEngine

/-! ## Entries -/

/-- A construct that a frame has open: a scope with its record or a region with its handler, and
the position of the instruction that opened it. -/
inductive Entry
  | scope (site : Nat) (record : RecordRef)
  | attempt (site : Nat) (handler : Handler)

namespace Entry

def opened : Entry → Open
  | .scope e _ => .scope e
  | .attempt e _ => .attempt e

/-- The scope of a frame that began in a scope and has these entries. -/
def chain (base : Chain) : List Entry → Chain
  | [] => base
  | .scope _ r :: es => r :: chain base es
  | .attempt _ _ :: es => chain base es

def handlers : List Entry → List Handler
  | [] => []
  | .scope _ _ :: es => handlers es
  | .attempt _ h :: es => h :: handlers es

/-- Every handler goes back to the entries below its own. In the case `X` it leaves no operand on the
stack, or it is one of the handlers `W`. -/
def Sound (X : Prop) (W : Nat → Prop) (R : Nat → Shape → Prop) (base : Chain) : List Entry → Prop
  | [] => True
  | .scope _ _ :: es => Sound X W R base es
  | .attempt _ h :: es =>
    h.scope = chain base es ∧ R h.target ⟨1, es.map opened⟩ ∧ (X → h.height = 0 ∨ W h.target) ∧ Sound X W R base es

theorem Sound.imp {X X' : Prop} {W : Nat → Prop} {R : Nat → Shape → Prop} {base : Chain} {es : List Entry}
    (h : Sound X W R base es) (hX : X' → X) : Sound X' W R base es := by
  induction es with
  | nil => trivial
  | cons e es ih =>
    cases e with
    | scope site r => exact ih h
    | attempt site x =>
      obtain ⟨hscope, htarget, hheight, h⟩ := h
      exact ⟨hscope, htarget, fun hx => hheight (hX hx), ih h⟩

/-- Some innermost entries were closed, and others opened by instructions at the positions `P`. -/
def Shift (P : Nat → Prop) (es es' : List Entry) : Prop :=
  ∃ new k, es' = new ++ es.drop k ∧ ∀ e ∈ new, P e.opened.site

namespace Shift

variable {P P' : Nat → Prop} {es es' es'' : List Entry}

theorem refl (es : List Entry) : Shift P es es := ⟨[], 0, rfl, nofun⟩

theorem drop (es : List Entry) (k : Nat) : Shift P es (es.drop k) := ⟨[], k, rfl, nofun⟩

theorem cons {e : Entry} (he : P e.opened.site) (es : List Entry) : Shift P es (e :: es) :=
  ⟨[e], 0, rfl, by simpa using he⟩

theorem mono (h : Shift P es es') (hP : ∀ p, P p → P' p) : Shift P' es es' := by
  obtain ⟨new, k, heq, hnew⟩ := h
  exact ⟨new, k, heq, fun e he => hP _ (hnew e he)⟩

theorem trans (h : Shift P es es') (h' : Shift P es' es'') : Shift P es es'' := by
  obtain ⟨new, k, rfl, hnew⟩ := h
  obtain ⟨new', k', rfl, hnew'⟩ := h'
  refine ⟨new' ++ new.drop k', k + (k' - new.length), ?_, fun e he => ?_⟩
  · rw [List.drop_append, List.drop_drop, List.append_assoc]
  · rcases List.mem_append.1 he with he | he
    · exact hnew' e he
    · exact hnew e (List.mem_of_mem_drop he)

theorem eq_of_opened (h : Shift P es es') (heq : es'.map opened = es.map opened)
    (hP : ∀ e ∈ es, ¬ P e.opened.site) : es' = es := by
  obtain ⟨new, k, rfl, hnew⟩ := h
  cases new with
  | nil =>
    have hlen := congrArg List.length heq
    simp only [List.nil_append, List.length_map, List.length_drop] at hlen
    rw [List.nil_append]
    rcases Nat.eq_zero_or_pos k with rfl | hk
    · rfl
    · rw [List.length_eq_zero_iff.1 (by omega : es.length = 0), List.drop_nil]
  | cons e new =>
    have hmem : e.opened ∈ es.map opened := heq ▸ List.mem_map_of_mem (.head _)
    obtain ⟨e', he', hopened⟩ := List.mem_map.1 hmem
    exact absurd (hopened ▸ hnew e (.head _)) (hP e' he')

end Shift

theorem length_handlers (es : List Entry) : (handlers es).length = (es.map opened).countP fun o => !o.isScope := by
  induction es with
  | nil => rfl
  | cons e es ih => cases e <;> simp [handlers, opened, Open.isScope, ih]

theorem chain_eq (base : Chain) (es : List Entry) :
    ∃ pushed, chain base es = pushed ++ base ∧ pushed.length = (es.map opened).countP Open.isScope := by
  induction es with
  | nil => exact ⟨[], rfl, rfl⟩
  | cons e es ih =>
    obtain ⟨pushed, heq, hlen⟩ := ih
    cases e with
    | scope site r =>
      refine ⟨r :: pushed, by rw [chain, heq, List.cons_append], ?_⟩
      rw [List.length_cons, hlen, List.map_cons, List.countP_cons_of_pos rfl]
    | attempt site h =>
      refine ⟨pushed, heq, ?_⟩
      rw [hlen, List.map_cons, List.countP_cons_of_neg (by simp [opened, Open.isScope])]

theorem exists_of_handlers {X : Prop} {W : Nat → Prop} {R : Nat → Shape → Prop} {base : Chain} {es : List Entry}
    {h : Handler} {hs : List Handler} (hes : handlers es = h :: hs) (hsound : Sound X W R base es) :
    ∃ k, handlers (es.drop k) = hs ∧ Sound X W R base (es.drop k) ∧ h.scope = chain base (es.drop k) ∧
      R h.target ⟨1, (es.drop k).map opened⟩ ∧ (X → h.height = 0 ∨ W h.target) := by
  induction es with
  | nil => cases hes
  | cons e es ih =>
    cases e with
    | scope site r =>
      obtain ⟨k, hk⟩ := ih hes hsound
      exact ⟨k + 1, hk⟩
    | attempt site h' =>
      cases hes
      obtain ⟨hscope, htarget, hheight, hsound⟩ := hsound
      exact ⟨1, rfl, hsound, hscope, htarget, hheight⟩

end Entry

/-! ## One frame -/

/-- A frame stands where the code has a shape: it has the entries that are open there, and its
operands are at least those of the shape, and in the case `X` just those. -/
structure Frame.Fits (X : Prop) (W : Nat → Prop) (R : Nat → Shape → Prop) (base : Chain) (f : Frame) (operands : Nat)
    (S : Shape) (es : List Entry) : Prop where
  shape : R f.position S
  opened : S.opened = es.map Entry.opened
  scope : f.scope = Entry.chain base es
  handlers : f.handlers = Entry.handlers es
  sound : Entry.Sound X W R base es
  least : S.height ≤ operands
  exact : X → S.height = operands

theorem Exec.pop_eq (realm : Realm) {f : Frame} {v : Value} {rest : List Value} (hs : f.stack = v :: rest) :
    pop ⟨realm, f⟩ = .ok v ⟨realm, { f with stack := rest }⟩ := by
  simp only [pop, takeOff, Frame.pop, hs, List.head?_cons, List.tail_cons]

theorem Exec.jumpWhen_eq (truth : Bool) (t : Nat) (realm : Realm) {f : Frame} {v : Value} {rest : List Value}
    (hs : f.stack = v :: rest) : jumpWhen truth t ⟨realm, f⟩ = .ok .proceed
      ⟨realm, { f with stack := rest, position := if v.toBoolean == truth then t else f.position }⟩ := by
  obtain ⟨code, position, stack, scope, receiver, temporaries, keys, handlers, purpose⟩ := f
  cases hs
  cases hv : v.toBoolean == truth <;>
    simp [jumpWhen, pop, takeOff, Frame.pop, jumpTo, modifyFrame, Bind.bind, EStateM.bind, Pure.pure, EStateM.pure, hv]

theorem Exec.shortCircuit_eq (truth : Bool) (t : Nat) (realm : Realm) {f : Frame} {v : Value} {rest : List Value}
    (hs : f.stack = v :: rest) : shortCircuit truth t ⟨realm, f⟩ = .ok .proceed
      ⟨realm, if v.toBoolean == truth then { f with position := t } else { f with stack := rest }⟩ := by
  obtain ⟨code, position, stack, scope, receiver, temporaries, keys, handlers, purpose⟩ := f
  cases hs
  cases hv : v.toBoolean == truth <;>
    simp [shortCircuit, peek, pop, takeOff, Frame.pop, jumpTo, modifyFrame, Bind.bind, EStateM.bind, Pure.pure,
      EStateM.pure, hv]

theorem Exec.nameAt_eq (op : Opcode) (index : Nat) (a : Activity) :
    (∃ name, nameAt op index a = .ok name a) ∨ nameAt op index a = .error (.fault (.internal (.badOperand op))) a := by
  simp only [nameAt, readFrame, Bind.bind, EStateM.bind]
  rcases a.frame.code.constants[index]? with - | v
  · exact .inr rfl
  · cases v with
    | string name => exact .inl ⟨name, rfl⟩
    | _ => exact .inr rfl

theorem Exec.nameOperand_eq (i : Instruction) (a : Activity) :
    (∃ name, nameOperand i a = .ok name a) ∨ ∃ e, nameOperand i a = .error e a := by
  obtain ⟨op, operand⟩ := i
  rcases operand with - | operand
  · exact .inr ⟨_, rfl⟩
  cases operand with
  | property index => exact (nameAt_eq op index a).imp_right fun h => ⟨_, h⟩
  | _ => exact .inr ⟨_, rfl⟩

theorem Instruction.zero_le_takes (i : Instruction) : 0 ≤ (i.takes : Int) + i.stackEffect := by
  obtain ⟨op, operand⟩ := i
  cases op <;> simp only [takes, stackEffect] <;> omega

theorem Shape.of_after {R : Nat → Shape → Prop} {S : Shape} {i : Instruction} {p : Nat} (h : R p (S.after i))
    (hi : i.stackEffect = -1) : R p ⟨S.height - 1, S.opened⟩ := by
  have hheight : ((S.height : Int) + -1).toNat = S.height - 1 := by omega
  rwa [after, hi, hheight] at h

namespace Frame.Fits

open Exec

variable {X : Prop} {W : Nat → Prop} {R : Nat → Shape → Prop} {base : Chain} {f : Frame} {n : Nat} {S : Shape}
  {es : List Entry}

theorem imp {X' : Prop} (h : f.Fits X W R base n S es) (hX : X' → X) : f.Fits X' W R base n S es :=
  ⟨h.shape, h.opened, h.scope, h.handlers, h.sound.imp hX, h.least, fun hx => h.exact (hX hx)⟩

/-- What comes of an instruction in a frame that fits. -/
def After (X : Prop) (W : Nat → Prop) (R : Nat → Shape → Prop) (base : Chain) (f : Frame) (es : List Entry) :
    EStateM.Result Raised Activity Next → Prop
  | .ok .proceed a => a.frame.code = f.code ∧ ∃ T es', a.frame.Fits X W R base a.frame.stack.length T es' ∧
      Entry.Shift (· = f.position) es es'
  | .ok (.enter _) a => a.frame.code = f.code ∧ ∃ T, a.frame.Fits X W R base (a.frame.stack.length + 1) T es
  | .ok (.leave _) _ => True
  | .error _ a => a.frame.code = f.code ∧ a.frame.handlers = f.handlers

theorem after_falls (h : f.Fits X W R base f.stack.length S es) {i : Instruction} (hi : i.transfer = .falls)
    (hf : S.Flows False R f.position i) (realm : Realm) :
    After X W R base f es (i.exec ⟨realm, { f with position := f.position + 1 }⟩) := by
  obtain ⟨htakes, hnext⟩ := hf
  rw [hi] at hnext
  have hzero := i.zero_le_takes
  have hmoves := i.moves_exec hi ⟨realm, { f with position := f.position + 1 }⟩
  have hleast := h.least
  have fits : ∀ (a : Activity) (n : Nat), Frame.Beside { f with position := f.position + 1 } a.frame →
      n + i.takes = f.stack.length + (i.takes + i.stackEffect).toNat → a.frame.Fits X W R base n (S.after i) es := by
    intro a n hbeside hlength
    refine ⟨hbeside.position ▸ hnext, h.opened, hbeside.scope.trans h.scope, hbeside.handlers.trans h.handlers,
      h.sound, ?_, fun hx => ?_⟩
    · simp only [Shape.after]
      omega
    · have hexact := h.exact hx
      simp only [Shape.after]
      omega
  revert hmoves
  cases i.exec ⟨realm, { f with position := f.position + 1 }⟩ with
  | error e a => exact id
  | ok next a =>
    cases next with
    | proceed => exact fun hm => ⟨hm.1.code, _, es, fits a _ hm.1 hm.2.length, .refl _⟩
    | leave v => exact fun _ => trivial
    | enter g => exact fun hm => ⟨hm.1.code, _, fits a _ hm.1 hm.2.length⟩

theorem after_target {i : Instruction} {k : Nat → Exec Next} {a : Activity} (hcode : a.frame.code = f.code)
    (hhandlers : a.frame.handlers = f.handlers) (hk : ∀ t, i.operand = some (.target t) → After X W R base f es (k t a)) :
    After X W R base f es ((targetOperand i >>= k) a) := by
  obtain ⟨op, operand⟩ := i
  rcases operand with - | operand
  · exact ⟨hcode, hhandlers⟩
  cases operand with
  | target t => exact hk t rfl
  | _ => exact ⟨hcode, hhandlers⟩

theorem after_jump (h : f.Fits X W R base f.stack.length S es) {t : Nat} (ht : R t S) (realm : Realm) :
    After X W R base f es ((jumpTo t >>= fun _ => pure .proceed) ⟨realm, { f with position := f.position + 1 }⟩) :=
  ⟨rfl, S, es, ⟨ht, h.opened, h.scope, h.handlers, h.sound, h.least, h.exact⟩, .refl _⟩

theorem height_popped (h : f.Fits X W R base f.stack.length S es) {v : Value} {rest : List Value}
    (hstack : f.stack = v :: rest) : S.height - 1 ≤ rest.length ∧ (X → S.height - 1 = rest.length) := by
  have hleast := h.least
  have hexact := h.exact
  rw [hstack, List.length_cons] at hleast hexact
  exact ⟨Nat.sub_le_of_le_add hleast, fun hx => Nat.sub_eq_of_eq_add (hexact hx)⟩

theorem popped (h : f.Fits X W R base f.stack.length S es) {v : Value} {rest : List Value} (hstack : f.stack = v :: rest)
    {p : Nat} (hp : R p ⟨S.height - 1, S.opened⟩) :
    Frame.Fits X W R base { f with position := p, stack := rest } rest.length ⟨S.height - 1, S.opened⟩ es :=
  ⟨hp, h.opened, h.scope, h.handlers, h.sound, (h.height_popped hstack).1, (h.height_popped hstack).2⟩

theorem after_jumpWhen (h : f.Fits X W R base f.stack.length S es) (truth : Bool) {t : Nat} (htakes : 1 ≤ S.height)
    (ht : R t ⟨S.height - 1, S.opened⟩) (hnext : R (f.position + 1) ⟨S.height - 1, S.opened⟩) (realm : Realm) :
    After X W R base f es (jumpWhen truth t ⟨realm, { f with position := f.position + 1 }⟩) := by
  obtain ⟨v, rest, hstack⟩ := List.exists_cons_of_length_pos (Nat.lt_of_lt_of_le htakes h.least)
  rw [jumpWhen_eq truth t realm (f := { f with position := f.position + 1 }) hstack]
  refine ⟨rfl, _, es, h.popped hstack ?_, .refl _⟩
  dsimp only
  split
  · exact ht
  · exact hnext

theorem after_shortCircuit (h : f.Fits X W R base f.stack.length S es) (truth : Bool) {t : Nat} (htakes : 1 ≤ S.height)
    (ht : R t S) (hnext : R (f.position + 1) ⟨S.height - 1, S.opened⟩) (realm : Realm) :
    After X W R base f es (shortCircuit truth t ⟨realm, { f with position := f.position + 1 }⟩) := by
  obtain ⟨v, rest, hstack⟩ := List.exists_cons_of_length_pos (Nat.lt_of_lt_of_le htakes h.least)
  rw [shortCircuit_eq truth t realm (f := { f with position := f.position + 1 }) hstack]
  split
  · exact ⟨rfl, S, es, ⟨ht, h.opened, h.scope, h.handlers, h.sound, h.least, h.exact⟩, .refl _⟩
  · exact ⟨rfl, _, es, h.popped hstack hnext, .refl _⟩

theorem after_enterTry (h : f.Fits X W R base f.stack.length S es) {t : Nat} (hW : S.height = 0 ∨ W t)
    (ht : R t ⟨1, S.opened⟩) (hnext : R (f.position + 1) ⟨S.height, .attempt f.position :: S.opened⟩) (realm : Realm) :
    After X W R base f es (enterTry t ⟨realm, { f with position := f.position + 1 }⟩) := by
  refine ⟨rfl, _, .attempt f.position ⟨t, f.stack.length, f.scope⟩ :: es, ⟨hnext, ?_, h.scope, ?_, ?_, h.least, h.exact⟩,
    .cons (P := (· = f.position)) rfl es⟩
  · rw [List.map_cons, h.opened]
    rfl
  · rw [Entry.handlers, ← h.handlers]
  · exact ⟨h.scope, h.opened ▸ ht, fun hx => hW.imp_left fun h₀ => (h.exact hx).symm.trans h₀, h.sound⟩

theorem after_leaveTry (h : f.Fits X W R base f.stack.length S es) {e : Nat} {C : List Open}
    (hC : S.opened = .attempt e :: C) (hnext : R (f.position + 1) ⟨S.height, C⟩) (realm : Realm) :
    After X W R base f es (leaveTry ⟨realm, { f with position := f.position + 1 }⟩) := by
  have hopened := h.opened
  rw [hC] at hopened
  match es, hopened, h with
  | .attempt e' x :: es, hopened, h =>
    refine ⟨rfl, _, es, ⟨hnext, (List.cons.inj hopened).2, h.scope, ?_, h.sound.2.2.2, h.least, h.exact⟩, .drop _ 1⟩
    show f.handlers.tail = _
    rw [h.handlers]
    rfl

theorem after_pushScope (h : f.Fits X W R base f.stack.length S es) {v : Value} {rest : List Value}
    (hstack : f.stack = v :: rest) (hnext : R (f.position + 1) ⟨S.height - 1, .scope f.position :: S.opened⟩)
    (record : Record) (realm : Realm) :
    After X W R base f es (pushScope record ⟨realm, { f with position := f.position + 1, stack := rest }⟩) := by
  obtain ⟨hleast, hexact⟩ := h.height_popped hstack
  refine ⟨rfl, _, .scope f.position (realm.store.addRecord record).1 :: es,
    ⟨hnext, ?_, ?_, h.handlers, h.sound, hleast, hexact⟩, .cons (P := (· = f.position)) rfl es⟩
  · rw [List.map_cons, h.opened]
    rfl
  · rw [Entry.chain, ← h.scope]
    rfl

theorem after_pushCatchScope (h : f.Fits X W R base f.stack.length S es) (operand : Option Operand) (htakes : 1 ≤ S.height)
    (hnext : R (f.position + 1) ⟨S.height - 1, .scope f.position :: S.opened⟩) (realm : Realm) :
    After X W R base f es (Instruction.exec ⟨.pushCatchScope, operand⟩ ⟨realm, { f with position := f.position + 1 }⟩) := by
  obtain ⟨v, rest, hstack⟩ := List.exists_cons_of_length_pos (Nat.lt_of_lt_of_le htakes h.least)
  have hname := nameOperand_eq ⟨.pushCatchScope, operand⟩ ⟨realm, { f with position := f.position + 1 }⟩
  simp only [Instruction.exec, Bind.bind, EStateM.bind]
  rcases hname with ⟨name, hname⟩ | ⟨e, hname⟩
  · simp only [hname, pop_eq realm (f := { f with position := f.position + 1 }) hstack]
    exact h.after_pushScope hstack hnext _ realm
  · rw [hname]
    exact ⟨rfl, rfl⟩

theorem after_pushWithScope (h : f.Fits X W R base f.stack.length S es) (htakes : 1 ≤ S.height)
    (hnext : R (f.position + 1) ⟨S.height - 1, .scope f.position :: S.opened⟩) (realm : Realm) :
    After X W R base f es (pushWithScope ⟨realm, { f with position := f.position + 1 }⟩) := by
  obtain ⟨v, rest, hstack⟩ := List.exists_cons_of_length_pos (Nat.lt_of_lt_of_le htakes h.least)
  simp only [pushWithScope, Bind.bind, EStateM.bind, pop_eq realm (f := { f with position := f.position + 1 }) hstack]
  cases v with
  | object r => exact h.after_pushScope hstack hnext _ realm
  | _ => exact ⟨rfl, rfl⟩

theorem after_popScope (h : f.Fits X W R base f.stack.length S es) {e : Nat} {C : List Open}
    (hC : S.opened = .scope e :: C) (hnext : R (f.position + 1) ⟨S.height, C⟩) (realm : Realm) :
    After X W R base f es (popScope ⟨realm, { f with position := f.position + 1 }⟩) := by
  have hopened := h.opened
  rw [hC] at hopened
  match es, hopened, h with
  | .scope e' x :: es, hopened, h =>
    have hscope : f.scope = x :: Entry.chain base es := h.scope
    simp only [popScope, readFrame, Bind.bind, EStateM.bind, hscope]
    cases hchain : Entry.chain base es with
    | nil => exact ⟨rfl, rfl⟩
    | cons r outer =>
      exact ⟨rfl, _, es, ⟨hnext, (List.cons.inj hopened).2, hchain.symm, h.handlers, h.sound, h.least, h.exact⟩,
        .drop _ 1⟩

/-- **An instruction leads from a frame that fits to one that fits.** -/
theorem after_exec (h : f.Fits X W R base f.stack.length S es) {i : Instruction} (hf : S.Flows False R f.position i)
    (hW : ∀ t, i.transfer = .opensRegion t → S.height = 0 ∨ W t) (realm : Realm) : After X W R base f es (i.exec ⟨realm, { f with position := f.position + 1 }⟩) := by
  by_cases hfalls : i.transfer = .falls
  · exact h.after_falls hfalls hf realm
  obtain ⟨op, operand⟩ := i
  obtain ⟨htakes, hnext⟩ := hf
  have hstack : 1 ≤ S.height → ∃ v rest, f.stack = v :: rest := fun h₁ =>
    List.exists_cons_of_length_pos (Nat.lt_of_lt_of_le h₁ h.least)
  cases op
  case leaveTry =>
    obtain ⟨e, C, hC, hnext⟩ := hnext
    exact h.after_leaveTry hC hnext realm
  case pushCatchScope => exact h.after_pushCatchScope operand htakes hnext realm
  case pushWithScope => exact h.after_pushWithScope htakes hnext realm
  case popScope =>
    obtain ⟨e, C, hC, hnext⟩ := hnext
    exact h.after_popScope hC hnext realm
  case ret =>
    obtain ⟨v, rest, hstack⟩ := hstack htakes
    simp only [Instruction.exec, Bind.bind, EStateM.bind, pop_eq realm (f := { f with position := f.position + 1 }) hstack]
    trivial
  case throwValue =>
    obtain ⟨v, rest, hstack⟩ := hstack htakes
    simp only [Instruction.exec, Bind.bind, EStateM.bind, pop_eq realm (f := { f with position := f.position + 1 }) hstack]
    exact ⟨rfl, rfl⟩
  case jump =>
    refine after_target rfl rfl fun t ht => ?_
    cases ht
    exact h.after_jump hnext realm
  case jumpIfFalse | jumpIfTrue =>
    refine after_target rfl rfl fun t ht => ?_
    cases ht
    exact h.after_jumpWhen _ htakes (Shape.of_after hnext.1 rfl) (Shape.of_after hnext.2 rfl) realm
  case logicalAnd | logicalOr =>
    refine after_target rfl rfl fun t ht => ?_
    cases ht
    exact h.after_shortCircuit _ htakes hnext.1 (Shape.of_after hnext.2 rfl) realm
  case enterTry =>
    refine after_target rfl rfl fun t ht => ?_
    cases ht
    exact h.after_enterTry (hW t rfl) hnext.2.1 hnext.2.2 realm
  all_goals exact (hfalls rfl).elim

theorem handle (h : f.Fits X W R base n S es) {g : Frame} (hg : g.handlers = f.handlers) {x : Handler} {xs : List Handler}
    (hx : g.handlers = x :: xs) (v : Value) {X' : Prop} (hX : X' → X)
    (hW : X' → W x.target → ∀ T, R x.target T → T.height = (Machine.handle g x xs v).stack.length) :
    ∃ T k, (Machine.handle g x xs v).Fits X' W R base (Machine.handle g x xs v).stack.length T (es.drop k) := by
  obtain ⟨k, hhandlers, hsound, hscope, htarget, hheight⟩ :=
    Entry.exists_of_handlers (h.handlers.symm.trans (hg.symm.trans hx)) h.sound
  refine ⟨_, k, htarget, rfl, hscope, hhandlers.symm, hsound.imp hX, Nat.le_add_left 1 _, fun hx' => ?_⟩
  rcases hheight (hX hx') with h₀ | hw
  · simp [Machine.handle, h₀]
  · exact hW hx' hw _ htarget

end Frame.Fits

/-! ## Runs -/

/-- Where the code has a shape there is an instruction, which leads on as the shape says. The handler
of a region that is opened above an operand is one of `W`. -/
def CodeUnit.Guided (W : Nat → Prop) (R : Nat → Shape → Prop) (u : CodeUnit) : Prop :=
  ∀ p S, R p S → ∃ i, u.instructions[p]? = some i ∧ S.Flows False R p i ∧
    ∀ t, i.transfer = .opensRegion t → S.height = 0 ∨ W t

namespace Machine

theorem receive_some {e : Raised} {realm realm' : Realm} {f g : Frame} (h : receive e realm f = (some g, realm')) :
    ∃ x xs v, f.handlers = x :: xs ∧ g = handle f x xs v := by
  unfold receive at h
  split at h
  next x xs hx =>
    split at h
    next v realm'' _ =>
      cases h
      exact ⟨x, xs, v, hx, rfl⟩
    · cases h
  · cases h

theorem unwind_run {e : Raised} {realm : Realm} {f : Frame} {callers : List Frame} {m : Machine}
    (h : unwind e realm f callers = .run m) :
    ∃ g x xs v, (g :: m.callers) <:+ (f :: callers) ∧ g.handlers = x :: xs ∧ m.frame = handle g x xs v := by
  induction callers generalizing realm f with
  | nil =>
    unfold unwind at h
    split at h
    next g realm' hr =>
      cases h
      obtain ⟨x, xs, v, hx, hg⟩ := receive_some hr
      exact ⟨f, x, xs, v, List.suffix_refl _, hx, hg⟩
    · cases h
  | cons caller callers ih =>
    unfold unwind at h
    split at h
    next g realm' hr =>
      cases h
      obtain ⟨x, xs, v, hx, hg⟩ := receive_some hr
      exact ⟨f, x, xs, v, List.suffix_refl _, hx, hg⟩
    next realm' hr =>
      obtain ⟨g, x, xs, v, hsuffix, hx, hm⟩ := ih h
      exact ⟨g, x, xs, v, hsuffix.trans (List.suffix_cons _ _), hx, hm⟩

/-- Steps that begin in machines with the property `Q` lead from one machine to another, and no frame
below the given depth runs. -/
inductive Leads (d : Nat) (Q : Machine → Prop) : Machine → Machine → Prop
  | refl {m} : Leads d Q m m
  | step {m m' m''} : Leads d Q m m' → Q m' → m'.step = .run m'' → d ≤ m''.callers.length → Leads d Q m m''

/-- The activation of a unit above some callers: its frame runs, or waits for the value of another. -/
inductive Stands (X : Prop) (W : Nat → Prop) (R : Nat → Shape → Prop) (base : Chain) (u : CodeUnit)
    (callers : List Frame) (es : List Entry) (m : Machine) : Prop
  | running {S} : m.callers = callers → m.frame.code = u → m.frame.Fits X W R base m.frame.stack.length S es →
      Stands X W R base u callers es m
  | waiting {S w} : (w :: callers) <:+ m.callers → w.code = u → w.Fits X W R base (w.stack.length + 1) S es →
      Stands X W R base u callers es m

/-- If the frame above these callers runs in a handler of `W`, it has the operands of the shape there. -/
def Settled (W : Nat → Prop) (R : Nat → Shape → Prop) (callers : List Frame) (m : Machine) : Prop :=
  m.callers = callers → W m.frame.position → ∀ S, R m.frame.position S → S.height = m.frame.stack.length

theorem Settled.handled {W : Nat → Prop} {R : Nat → Shape → Prop} {callers : List Frame} {m : Machine} {g : Frame}
    {x : Handler} {xs : List Handler} {v : Value} (h : Settled W R callers m) (hcallers : m.callers = callers)
    (hm : m.frame = handle g x xs v) :
    W x.target → ∀ S, R x.target S → S.height = (handle g x xs v).stack.length := by
  have h := h hcallers
  rw [hm] at h
  exact h

theorem deliver_run {realm : Realm} {purpose : Purpose} {v : Value} {callers : List Frame} {m : Machine}
    (h : deliver realm purpose v callers = .run m) : ∃ c v, callers = c :: m.callers ∧ m.frame = c.push v := by
  cases callers with
  | nil => cases h
  | cons c callers =>
    cases h
    exact ⟨c, _, rfl, rfl⟩

theorem step_run {m m' : Machine} (h : m.step = .run m') :
    m'.callers = m.callers ∨ (∃ c v, m.callers = c :: m'.callers ∧ m'.frame = c.push v) ∨
      (∃ f, m'.callers = f :: m.callers) ∨
      ∃ f g x xs v, (g :: m'.callers) <:+ (f :: m.callers) ∧ g.handlers = x :: xs ∧ m'.frame = handle g x xs v := by
  cases hi : m.next? with
  | none =>
    have hstep : m.step = deliver m.realm m.frame.purpose .undefined m.callers := by
      rw [next?] at hi
      rw [step]
      simp only [hi]
    exact .inr (.inl (deliver_run (hstep.symm.trans h)))
  | some i =>
    rw [step_eq hi] at h
    cases hx : i.exec m.activity with
    | error e a =>
      rw [hx] at h
      obtain ⟨g, x, xs, v, hg⟩ := unwind_run h
      exact .inr (.inr (.inr ⟨a.frame, g, x, xs, v, hg⟩))
    | ok next a =>
      rw [hx] at h
      cases next with
      | proceed =>
        cases h
        exact .inl rfl
      | leave v => exact .inr (.inl (deliver_run h))
      | enter f =>
        cases h
        exact .inr (.inr (.inl ⟨a.frame, rfl⟩))

namespace Stands

variable {X : Prop} {W : Nat → Prop} {R : Nat → Shape → Prop} {base : Chain} {u : CodeUnit} {callers : List Frame} {es : List Entry}
  {m m' : Machine}

theorem imp {X' : Prop} (h : Stands X W R base u callers es m) (hX : X' → X) : Stands X' W R base u callers es m := by
  cases h with
  | running hcallers hcode hfits => exact .running hcallers hcode (hfits.imp hX)
  | waiting hsuffix hcode hfits => exact .waiting hsuffix hcode (hfits.imp hX)

theorem step_running (hR : u.Guided W R) {S : Shape}
    (hcallers : m.callers = callers) (hcode : m.frame.code = u)
    (hfits : m.frame.Fits X W R base m.frame.stack.length S es) (hs : m.step = .run m')
    (hd : callers.length ≤ m'.callers.length) :
    ∃ es', Stands (X ∧ Settled W R callers m') W R base u callers es' m' ∧
      Entry.Shift (· = m.frame.position) es es' := by
  obtain ⟨i, hi, hflows, hW⟩ := hR _ _ hfits.shape
  rw [step_eq (i := i) (by rw [next?, hcode, hi])] at hs
  have hafter : Frame.Fits.After X W R base m.frame es (i.exec m.activity) := hfits.after_exec hflows hW m.realm
  cases hx : i.exec m.activity with
  | error e a =>
    rw [hx] at hs hafter
    obtain ⟨hacode, hahandlers⟩ := hafter
    obtain ⟨g, x, xs, v, hsuffix, hg, hm⟩ := unwind_run hs
    obtain ⟨rfl, hcs⟩ := List.cons.inj (hsuffix.eq_of_length_le (by
      rw [List.length_cons, List.length_cons, hcallers]
      exact Nat.succ_le_succ hd))
    obtain ⟨T, k, hT⟩ := hfits.handle hahandlers hg v (And.left : X ∧ Settled W R callers m' → X)
      fun hx => hx.2.handled (hcs.trans hcallers) hm
    exact ⟨es.drop k, .running (hcs.trans hcallers) (by rw [hm]; exact hacode.trans hcode) (hm ▸ hT), .drop es k⟩
  | ok next a =>
    rw [hx] at hs hafter
    cases next with
    | proceed =>
      cases hs
      obtain ⟨hacode, T, es', hT, hshift⟩ := hafter
      exact ⟨es', .running hcallers (hacode.trans hcode) (hT.imp And.left), hshift⟩
    | leave v =>
      obtain ⟨c, w, hc, -⟩ := deliver_run hs
      rw [← hcallers, hc, List.length_cons] at hd
      exact absurd hd (Nat.not_succ_le_self _)
    | enter f =>
      cases hs
      obtain ⟨hacode, T, hT⟩ := hafter
      exact ⟨es, .waiting (hcallers ▸ List.suffix_refl _) (hacode.trans hcode) (hT.imp And.left), .refl es⟩

theorem step_waiting {S : Shape} {w : Frame} (hsuffix : (w :: callers) <:+ m.callers) (hcode : w.code = u)
    (hfits : w.Fits X W R base (w.stack.length + 1) S es) (hs : m.step = .run m')
    (hd : callers.length ≤ m'.callers.length) :
    ∃ k, Stands (X ∧ Settled W R callers m') W R base u callers (es.drop k) m' := by
  have hfits' := hfits.imp (And.left : X ∧ Settled W R callers m' → X)
  rcases step_run hs with hcs | ⟨c, v, hcs, hm⟩ | ⟨f, hcs⟩ | ⟨f, g, x, xs, v, hg, hx, hm⟩
  · exact ⟨0, .waiting (hcs ▸ hsuffix) hcode hfits'⟩
  · rw [hcs] at hsuffix
    rcases List.suffix_cons_iff.1 hsuffix with heq | hsuffix
    · obtain ⟨rfl, rfl⟩ := List.cons.inj heq
      refine ⟨0, .running rfl (by rw [hm]; exact hcode) (S := S) ?_⟩
      rw [hm]
      exact ⟨hfits'.shape, hfits'.opened, hfits'.scope, hfits'.handlers, hfits'.sound, hfits'.least, hfits'.exact⟩
    · exact ⟨0, .waiting hsuffix hcode hfits'⟩
  · exact ⟨0, .waiting (hcs ▸ hsuffix.trans (List.suffix_cons _ _)) hcode hfits'⟩
  · have hsuffix := List.suffix_of_suffix_length_le (hsuffix.trans (List.suffix_cons f _)) hg (Nat.succ_le_succ hd)
    rcases List.suffix_cons_iff.1 hsuffix with heq | hsuffix
    · obtain ⟨rfl, rfl⟩ := List.cons.inj heq
      obtain ⟨T, k, hT⟩ := hfits.handle rfl hx v (And.left : X ∧ Settled W R m'.callers m' → X)
        fun hx => hx.2.handled rfl hm
      exact ⟨k, .running rfl (by rw [hm]; exact hcode) (hm ▸ hT)⟩
    · exact ⟨0, .waiting hsuffix hcode hfits'⟩

/-- **However a step goes, the activation stands where the code has the shape of its frame.** -/
theorem step (hR : u.Guided W R) (h : Stands X W R base u callers es m) (hs : m.step = .run m')
    (hd : callers.length ≤ m'.callers.length) :
    ∃ es', Stands (X ∧ Settled W R callers m') W R base u callers es' m' ∧
      Entry.Shift (fun p => m.callers = callers ∧ p = m.frame.position) es es' := by
  cases h with
  | running hcallers hcode hfits =>
    obtain ⟨es', hes', hshift⟩ := step_running hR hcallers hcode hfits hs hd
    exact ⟨es', hes', hshift.mono fun p hp => ⟨hcallers, hp⟩⟩
  | waiting hsuffix hcode hfits =>
    obtain ⟨k, hk⟩ := step_waiting hsuffix hcode hfits hs hd
    exact ⟨_, hk, .drop es k⟩

theorem leads (hR : u.Guided W R) {Q : Machine → Prop} {P : Nat → Prop}
    (hP : ∀ m, Q m → m.callers = callers → P m.frame.position) (hX : ∀ m, Q m → X → Settled W R callers m)
    (h : Stands X W R base u callers es m) (hl : Leads callers.length Q m m') :
    ∃ es', Stands (X ∧ Settled W R callers m') W R base u callers es' m' ∧ Entry.Shift P es es' := by
  induction hl with
  | refl => exact ⟨es, h.imp And.left, .refl es⟩
  | @step m' m'' _ hq hs hd ih =>
    obtain ⟨es', hes', hshift⟩ := ih
    obtain ⟨es'', hes'', hshift'⟩ := hes'.step hR hs hd
    refine ⟨es'', hes''.imp fun hx => ⟨⟨hx.1, hX m' hq hx.1⟩, hx.2⟩, hshift.trans (hshift'.mono ?_)⟩
    rintro p ⟨hcallers, rfl⟩
    exact hP m' hq hcallers

theorem runs (h : Stands X W R base u callers es m) (hd : m.callers.length = callers.length) :
    m.callers = callers ∧ m.frame.code = u ∧ ∃ S, m.frame.Fits X W R base m.frame.stack.length S es := by
  cases h with
  | running hcallers hcode hfits => exact ⟨hcallers, hcode, _, hfits⟩
  | waiting hsuffix =>
    have hlen := hsuffix.length_le
    rw [hd, List.length_cons] at hlen
    exact absurd hlen (Nat.not_succ_le_self _)

end Stands

end Machine

end ScriptEngine
