/-
How runs of the machine follow the evaluation of trees. A realm is related to a
world when they agree up to code and every closure has the code of its tree.
Main definitions: `Rel`, `Sim` and `Runs`; a piece of code runs like an
evaluation when both end alike, and when an evaluation out of rounds means that
the machine is still running after as many steps.
-/
import ScriptEngine.Proofs.Lowering.Unit
import ScriptEngine.Proofs.Machine.Reach
import ScriptEngine.Proofs.Meaning.Program

namespace ScriptEngine

open Meaning

/-- What a comparison is about: the options of the engine, the faults that evaluation finds in
programs given to `eval` before they run, the faults with which a comparison ends, and whether the
functions stand for trees, so that evaluation sees realms without code. -/
structure Mode where
  options : EngineOptions
  check : Bool → Program → Option Fault
  excused : Fault → Prop
  linked : Bool

namespace Mode

/-- The check finds the faults that lowering finds in a program that was read. -/
def Fits (M : Mode) : Prop := ∀ source strict p, Program.parse source = .ok p →
  match compileEval M.options.lowering strict p with
  | .ok _ => M.check strict p = none
  | .error f => M.excused f ∨ M.check strict p = some f ∧ f.Visible

def view (M : Mode) (r : Realm) : Realm := if M.linked then r.outline else r

theorem view_linked {M : Mode} (h : M.linked = true) (r : Realm) : M.view r = r.outline := if_pos h

@[simp] theorem view_maxCallDepth (M : Mode) (r : Realm) :
    (M.view r).options.maxCallDepth = r.options.maxCallDepth := by
  rw [view]
  split <;> rfl

@[simp] theorem view_isStrict (M : Mode) (r : Realm) :
    (M.view r).options.lowering.isStrict = r.options.lowering.isStrict := by
  rw [view]
  split <;> rfl

@[simp] theorem view_depth (M : Mode) (r : Realm) : (M.view r).depth = r.depth := by
  rw [view]
  split <;> rfl

@[simp] theorem view_global (M : Mode) (r : Realm) : (M.view r).global = r.global := by
  rw [view]
  split <;> rfl

theorem view_setDepth (M : Mode) (r : Realm) (d : Nat) :
    M.view { r with depth := d } = { M.view r with depth := d } := by
  simp only [view]
  split <;> rfl

theorem view_read (M : Mode) (r : Realm) {g : Store → α} (hg : ∀ s : Store, g s.outline = g s) :
    g (M.view r).store = g r.store := by
  rw [view]
  split
  · rw [Realm.outline_store, hg]
  · rfl

/-- The next step raises a fault with which a comparison ends. -/
def Odd (M : Mode) (s : Step) : Prop := ∃ m f, s = .run m ∧ M.excused f ∧ m.Raises (.fault f)

end Mode

/-- The realm of a machine and the world of an evaluation agree. -/
structure Rel (M : Mode) (r : Realm) (W : World) : Prop where
  realm : W.realm = M.view r
  options : r.options = M.options
  closures : M.linked = true → ∀ (i : Nat) code scope, r.store.callables[i]? = some (.closure code scope) →
    ∃ src env, W.sources[i]? = some src ∧ Lowered M.options.lowering env src code ∧
      Env.Matches r.store (Lowering.ownEnv src env) scope

theorem Rel.value {M r W} (h : Rel M r W) (v : Value) : Rel M r { W with value := v } :=
  ⟨h.realm, h.options, h.closures⟩

theorem Rel.keeps {M r W r'} (h : Rel M r W) (hk : r.Keeps r') : Rel M r' { W with realm := M.view r' } := by
  refine ⟨rfl, hk.options.trans h.options, fun hl i code scope hi => ?_⟩
  rw [hk.store.callables] at hi
  obtain ⟨src, env, hsrc, hlow, hm⟩ := h.closures hl i code scope hi
  exact ⟨src, env, hsrc, hlow, hm.keeps hk.store.records⟩

theorem Action.Tame.view {x : Action α} (h : x.Tame) (M : Mode) (r : Realm) :
    match x r with
    | .ok a r' => r.Keeps r' ∧ x (M.view r) = .ok a (M.view r')
    | .error e r' => r.Keeps r' ∧ x (M.view r) = .error e (M.view r') ∧ e.Visible := by
  have h := h r
  cases hM : M.linked with
  | true =>
    simp only [Mode.view_linked hM]
    exact h
  | false =>
    simp only [Mode.view, hM, Bool.false_eq_true, if_false]
    cases hx : x r with
    | ok a r' => rw [hx] at h; exact ⟨h.1, rfl⟩
    | error e r' => rw [hx] at h; exact ⟨h.1, rfl, h.2.2⟩

theorem Mode.exceptionValue_view {e : Raised} (h : e.Visible) (M : Mode) (r : Realm) :
    ∃ v r', r.exceptionValue e = (some v, r') ∧ r.Keeps r' ∧ (M.view r).exceptionValue e = (some v, M.view r') := by
  obtain ⟨v, r', hv, hk, ho⟩ := Realm.exceptionValue_visible h r
  refine ⟨v, r', hv, hk, ?_⟩
  cases hM : M.linked with
  | true =>
    simp only [Mode.view_linked hM]
    exact ho
  | false =>
    simp only [Mode.view, hM, Bool.false_eq_true, if_false]
    exact hv

/-! ## Evaluations and configurations -/

/-- From a configuration the machine follows an evaluation. Where the evaluation runs out of
rounds, the machine makes at least `n` steps. -/
def Sim (M : Mode) (n : Nat) (x : Eval α) (W : World) (s : Step) (Q : α → World → Step → Prop)
    (E : Raised → World → Step → Prop) : Prop :=
  ∃ k s', Reaches k s s' ∧ (M.Odd s' ∨
    match x W with
    | none => n ≤ k
    | some (.ok a, W') => Q a W' s'
    | some (.error e, W') => E e W' s')

namespace Sim

variable {M : Mode} {n : Nat} {x : Eval α} {W : World} {s : Step} {Q : α → World → Step → Prop}
  {E : Raised → World → Step → Prop}

theorem ok {a W'} (hx : x W = some (.ok a, W')) (h : Q a W' s) : Sim M n x W s Q E :=
  ⟨0, s, .refl, .inr (by rw [hx]; exact h)⟩

theorem error {e W'} (hx : x W = some (.error e, W')) (h : E e W' s) : Sim M n x W s Q E :=
  ⟨0, s, .refl, .inr (by rw [hx]; exact h)⟩

theorem pure {a : α} (h : Q a W s) : Sim M n (Pure.pure a) W s Q E := ok rfl h

theorem odd (h : M.Odd s) : Sim M n x W s Q E := ⟨0, s, .refl, .inl h⟩

theorem zero : Sim M 0 (outOfRounds : Eval α) W s Q E := ⟨0, s, .refl, .inr (Nat.le_refl 0)⟩

theorem of_eq {y : Eval α} {V : World} (h : Sim M n y V s Q E) (hxy : x W = y V) : Sim M n x W s Q E := by
  obtain ⟨k, s', hr, h⟩ := h
  exact ⟨k, s', hr, by rw [hxy]; exact h⟩

theorem reaches {k n' : Nat} {s' : Step} (hr : Reaches k s s') (h : Sim M n x W s' Q E) (hn : n' ≤ k + n) :
    Sim M n' x W s Q E := by
  obtain ⟨k', s'', hr', hodd | h⟩ := h
  · exact ⟨k + k', s'', hr.trans hr', .inl hodd⟩
  · refine ⟨k + k', s'', hr.trans hr', .inr ?_⟩
    match hx : x W with
    | none => rw [hx] at h; dsimp only at h ⊢; omega
    | some (.ok a, W') => rw [hx] at h; exact h
    | some (.error e, W') => rw [hx] at h; exact h

theorem le {m : Nat} (h : Sim M n x W s Q E) (hm : m ≤ n) : Sim M m x W s Q E := h.reaches .refl (by omega)

theorem follow {y : Eval β} {V : World} {Q' : β → World → Step → Prop} {E' : Raised → World → Step → Prop}
    (h : Sim M n x W s Q E) (hnone : x W = none → y V = none)
    (hok : ∀ a W' s', x W = some (.ok a, W') → Q a W' s' → Sim M n y V s' Q' E')
    (herror : ∀ e W' s', x W = some (.error e, W') → E e W' s' → Sim M n y V s' Q' E') : Sim M n y V s Q' E' := by
  obtain ⟨k, s', hr, hodd | h⟩ := h
  · exact ⟨k, s', hr, .inl hodd⟩
  · match hx : x W with
    | none =>
      rw [hx] at h
      exact ⟨k, s', hr, .inr (by rw [hnone hx]; exact h)⟩
    | some (.ok a, W') =>
      rw [hx] at h
      exact (hok a W' s' hx h).reaches hr (Nat.le_add_left n k)
    | some (.error e, W') =>
      rw [hx] at h
      exact (herror e W' s' hx h).reaches hr (Nat.le_add_left n k)

theorem mono {Q' : α → World → Step → Prop} {E' : Raised → World → Step → Prop} (h : Sim M n x W s Q E)
    (hQ : ∀ a W' s', Q a W' s' → Q' a W' s') (hE : ∀ e W' s', E e W' s' → E' e W' s') : Sim M n x W s Q' E' :=
  h.follow id (fun a W' s' hx hs => .ok hx (hQ a W' s' hs)) fun e W' s' hx hs => .error hx (hE e W' s' hs)

theorem bind {k : α → Eval β} {Q' : β → World → Step → Prop} (h : Sim M n x W s Q E)
    (hk : ∀ a W' s', x W = some (.ok a, W') → Q a W' s' → Sim M n (k a) W' s' Q' E) :
    Sim M n (x >>= k) W s Q' E := by
  refine h.follow (fun hx => ?_) (fun a W' s' hx hs => ?_) fun e W' s' hx hs => ?_
  · rw [bind_apply, hx]
  · exact (hk a W' s' hx hs).of_eq (by rw [bind_apply, hx])
  · exact .error (by rw [bind_apply, hx]) hs

theorem after {Q' : α → World → Step → Prop} (h : Sim M n x W s Q E)
    (hQ : ∀ a W' s', Q a W' s' → ∃ k s'', Reaches k s' s'' ∧ Q' a W' s'') : Sim M n x W s Q' E := by
  refine h.follow id (fun a W' s' hx hs => ?_) fun e W' s' hx hs => .error hx hs
  obtain ⟨k, s'', hr, hs⟩ := hQ a W' s' hs
  exact (Sim.ok hx hs).reaches hr (Nat.le_add_left n k)

end Sim

/-! ## Frames on the way -/

/-- Where a piece of code starts: the frame and the store at that point, the frames that wait,
the number of temporaries that the piece leaves alone, and the temporary with the value of a
script. -/
structure Stage where
  callers : List Frame
  frame : Frame
  store : Store
  taken : Nat
  completion : Option Nat

/-- A frame that is still on its way through the piece. -/
structure On (M : Mode) (K : Stage) (r : Realm) (W : World) (f : Frame) : Prop where
  rel : Rel M r W
  records : K.store.KeepsRecords r.store
  code : f.code = K.frame.code
  receiver : f.receiver = K.frame.receiver
  purpose : f.purpose = K.frame.purpose
  handlers : f.handlers = K.frame.handlers
  temporaries : ∀ t, t < K.taken → K.completion ≠ some t → f.temporary t = K.frame.temporary t
  keys : ∀ t, t < K.taken → f.keysOf t = K.frame.keysOf t
  value : ∀ t, K.completion = some t → f.temporary t = W.value

/-- The frame stands at a position, with operands above those that were there at the start. -/
structure At (M : Mode) (K : Stage) (pc : Nat) (st : List Value) (r : Realm) (W : World) (f : Frame) : Prop
    extends On M K r W f where
  position : f.position = pc
  stack : f.stack = st ++ K.frame.stack
  scope : f.scope = K.frame.scope

def Arrives (M : Mode) (K : Stage) (pc : Nat) (st : List Value) (W : World) (s : Step) : Prop :=
  ∃ r f, s = .run ⟨r, f, K.callers⟩ ∧ At M K pc st r W f

def Fails (M : Mode) (K : Stage) (e : Raised) (W : World) (s : Step) : Prop :=
  ∃ r f st, s = Machine.unwind e r f K.callers ∧ On M K r W f ∧ f.stack = st ++ K.frame.stack ∧ e.Visible

/-- The code between two positions does to the operands what an evaluation says. -/
def Runs (M : Mode) (n : Nat) (K : Stage) (x : Eval α) (a b : Nat) (pre : List Value) (post : α → List Value) :
    Prop :=
  ∀ r W f, At M K a pre r W f →
    Sim M n x W (.run ⟨r, f, K.callers⟩) (fun v => Arrives M K b (post v)) (Fails M K)

/-- The frame behind its next instruction, with other operands. -/
def Frame.past (f : Frame) (stack : List Value) : Frame := { f with position := f.position + 1, stack }

/-- The frame goes on when an action in its realm ended, with operands according to the result. -/
def Frame.resume (f : Frame) (post : α → List Value) (left : List Value) :
    EStateM.Result Raised Realm α → EStateM.Result Raised Activity Next
  | .ok a r => .ok .proceed ⟨r, f.past (post a)⟩
  | .error e r => .error e ⟨r, f.past left⟩

/-- The operation relies on what lowering had in mind, in strict code or not. -/
def Opcode.relies (strict : Bool) : Opcode → Bool
  | .loadSlot | .storeSlot | .loadFalse | .closure => true
  | .storeName => strict
  | _ => false

def Instruction.Plain (strict : Bool) (i : Instruction) : Prop := i.opcode.relies strict = false

section

variable {M : Mode} {n : Nat} {K : Stage} {a b m : Nat} {pre mid : List Value} {r : Realm} {W : World} {f : Frame}
  {i : Instruction}
variable {taken : Nat} {g : Frame} {K' : Stage}

theorem On.past {st : List Value} (h : On M K r W f) : On M K r W (f.past st) :=
  ⟨h.rel, h.records, h.code, h.receiver, h.purpose, h.handlers, h.temporaries, h.keys, h.value⟩

theorem On.keeps {r'} (h : On M K r W f) (hk : r.Keeps r') : On M K r' { W with realm := M.view r' } f :=
  ⟨h.rel.keeps hk, h.records.trans hk.store.records, h.code, h.receiver, h.purpose, h.handlers, h.temporaries,
    h.keys, h.value⟩

theorem At.past (h : At M K a pre r W f) (st : List Value) : At M K (a + 1) st r W (f.past (st ++ K.frame.stack)) :=
  ⟨h.toOn.past, by rw [← h.position]; rfl, rfl, h.scope⟩

theorem At.next? (h : At M K a pre r W f) (hi : K.frame.code.instructions[a]? = some i) :
    (Machine.mk r f K.callers).next? = some i := by
  rw [Machine.next?, h.code, h.position, hi]

theorem Machine.agrees_of_plain {m : Machine} (h : m.next? = some i) (hp : i.Plain m.frame.code.strict) :
    m.Agrees := by
  have hne : ∀ {j : Instruction}, m.next? = some j → j.opcode.relies m.frame.code.strict = false := by
    intro j hj
    rw [h] at hj
    cases hj
    exact hp
  refine ⟨fun op depth index hop hn => ?_, fun name hn => ?_, fun operand hn => hne hn, fun k u hn => ?_⟩
  · rcases hop with rfl | rfl <;> cases hne hn
  · cases hne hn
  · cases hne hn

theorem At.agrees (h : At M K a pre r W f) (hi : K.frame.code.instructions[a]? = some i)
    (hp : i.Plain K.frame.code.strict) : (Machine.mk r f K.callers).Agrees :=
  Machine.agrees_of_plain (h.next? hi) (by rw [h.code]; exact hp)

theorem At.agrees_false (h : At M K a pre r W f) (hi : K.frame.code.instructions[a]? = some ⟨.loadFalse, none⟩)
    (hs : ∀ name, K.frame.code.slotNames[a]? = some name →
      ∃ depth index ref, r.store.SlotOf f.scope name depth index ref) : (Machine.mk r f K.callers).Agrees := by
  have hn := h.next? hi
  refine ⟨fun op depth index hop hn' => ?_, fun name _ hname => ?_, fun operand hn' => ?_, fun k u hn' => ?_⟩
  · rw [hn] at hn'
    cases hn'
  · rw [show (Machine.mk r f K.callers).frame = f from rfl, h.code, h.position] at hname
    exact hs name hname
  · rw [hn] at hn'
    cases hn'
  · rw [hn] at hn'
    cases hn'

/-! ## Stages inside others -/

/-- A stage that a piece of code comes to on its way. Handlers and scope may differ. -/
structure Stage.Within (K K' : Stage) : Prop where
  callers : K'.callers = K.callers
  code : K'.frame.code = K.frame.code
  receiver : K'.frame.receiver = K.frame.receiver
  purpose : K'.frame.purpose = K.frame.purpose
  completion : K'.completion = K.completion
  taken : K.taken ≤ K'.taken
  records : K.store.KeepsRecords K'.store
  stack : K'.frame.stack = K.frame.stack
  temporaries : ∀ t, t < K.taken → K.completion ≠ some t → K'.frame.temporary t = K.frame.temporary t
  keys : ∀ t, t < K.taken → K'.frame.keysOf t = K.frame.keysOf t

/-- The stage at a frame on the way, when so many temporaries are to be left alone. -/
def Stage.sub (K : Stage) (f : Frame) (r : Realm) (taken : Nat) : Stage :=
  ⟨K.callers, { f with stack := K.frame.stack }, r.store, taken, K.completion⟩

/-- Frames that differ in position, operands, scope and handlers only. -/
structure Frame.Alike (f g : Frame) : Prop where
  code : g.code = f.code
  receiver : g.receiver = f.receiver
  purpose : g.purpose = f.purpose
  temporaries : g.temporaries = f.temporaries
  keys : g.keys = f.keys

theorem On.within (h : On M K r W f) (ha : f.Alike g) (ht : K.taken ≤ taken) : K.Within (K.sub g r taken) where
  callers := rfl
  code := ha.code.trans h.code
  receiver := ha.receiver.trans h.receiver
  purpose := ha.purpose.trans h.purpose
  completion := rfl
  taken := ht
  records := h.records
  stack := rfl
  temporaries t hlt hc := by rw [← h.temporaries t hlt hc, Frame.temporary, Frame.temporary, ← ha.temporaries]; rfl
  keys t hlt := by rw [← h.keys t hlt, Frame.keysOf, Frame.keysOf, ← ha.keys]; rfl

theorem On.sub (h : On M K r W f) (ha : f.Alike g) : On M (K.sub g r taken) r W g :=
  ⟨h.rel, .refl _, rfl, rfl, rfl, rfl, fun _ _ _ => rfl, fun _ _ => rfl,
    fun t ht => by rw [← h.value t ht, Frame.temporary, Frame.temporary, ← ha.temporaries]⟩

theorem On.outer (h : On M K' r W f) (hw : K.Within K') (ha : f.Alike g) (hh : g.handlers = K.frame.handlers) :
    On M K r W g where
  rel := h.rel
  records := hw.records.trans h.records
  code := (ha.code.trans h.code).trans hw.code
  receiver := (ha.receiver.trans h.receiver).trans hw.receiver
  purpose := (ha.purpose.trans h.purpose).trans hw.purpose
  handlers := hh
  temporaries t hlt hc := by
    rw [← hw.temporaries t hlt hc, ← h.temporaries t (Nat.lt_of_lt_of_le hlt hw.taken) (hw.completion ▸ hc),
      Frame.temporary, ha.temporaries, Frame.temporary]
  keys t hlt := by
    rw [← hw.keys t hlt, ← h.keys t (Nat.lt_of_lt_of_le hlt hw.taken), Frame.keysOf, ha.keys, Frame.keysOf]
  value t ht := by
    rw [← h.value t (hw.completion.trans ht), Frame.temporary, ha.temporaries, Frame.temporary]

theorem Fails.outer {e s} (h : Fails M K' e W s) (hw : K.Within K') (hh : K'.frame.handlers = K.frame.handlers) :
    Fails M K e W s := by
  obtain ⟨r', f', st, hs, hf, hst, he⟩ := h
  exact ⟨r', f', st, by rw [hs, hw.callers], hf.outer hw ⟨rfl, rfl, rfl, rfl, rfl⟩ (hf.handlers.trans hh),
    by rw [hst, hw.stack], he⟩

theorem At.sub (h : At M K a pre r W f) (ha : f.Alike g) (hp : g.position = m) (hst : g.stack = mid ++ K.frame.stack) :
    At M (K.sub g r taken) m mid r W g :=
  ⟨h.toOn.sub ha, hp, hst, rfl⟩

/-- A stage that differs from another one in what is to be left alone. -/
structure Stage.Later (K K' : Stage) : Prop extends K.Within K' where
  handlers : K'.frame.handlers = K.frame.handlers
  scope : K'.frame.scope = K.frame.scope

theorem At.isLater (h : At M K a pre r W f) (ht : K.taken ≤ taken) : K.Later (K.sub f r taken) :=
  ⟨h.toOn.within ⟨rfl, rfl, rfl, rfl, rfl⟩ ht, h.handlers, h.scope⟩

theorem At.back (hl : K.Later K') (h : At M K' a pre r W f) : At M K a pre r W f :=
  ⟨h.toOn.outer hl.toWithin ⟨rfl, rfl, rfl, rfl, rfl⟩ (h.handlers.trans hl.handlers), h.position,
    by rw [h.stack, hl.stack], h.scope.trans hl.scope⟩

theorem Arrives.back {s} (hl : K.Later K') (h : Arrives M K' a pre W s) : Arrives M K a pre W s := by
  obtain ⟨r', f', rfl, hf⟩ := h
  exact ⟨r', f', by rw [hl.callers], hf.back hl⟩

theorem Fails.back {e s} (hl : K.Later K') (h : Fails M K' e W s) : Fails M K e W s := h.outer hl.toWithin hl.handlers

theorem At.later (h : At M K a pre r W f) : At M (K.sub f r taken) a pre r W f :=
  h.sub ⟨rfl, rfl, rfl, rfl, rfl⟩ h.position h.stack

theorem At.step (h : At M K a pre r W f) (hi : K.frame.code.instructions[a]? = some i)
    (hs : (Machine.mk r f K.callers).Agrees)
    (hv : ∀ e A, i.exec ⟨r, f.past f.stack⟩ = .error e A → e.Visible) :
    Reaches 1 (.run ⟨r, f, K.callers⟩) (Machine.step ⟨r, f, K.callers⟩) := by
  have hn := h.next? hi
  refine .one ⟨⟨i, hn⟩, fun e he => ?_, hs⟩
  obtain ⟨j, A, hj, he⟩ := he
  rw [hn] at hj
  cases hj
  exact hv e A he

theorem At.step_eq (h : At M K a pre r W f) (hi : K.frame.code.instructions[a]? = some i) :
    Machine.step ⟨r, f, K.callers⟩ = match i.exec ⟨r, f.past f.stack⟩ with
      | .ok .proceed A => .run ⟨A.realm, A.frame, K.callers⟩
      | .ok (.leave v) A => Machine.deliver A.realm A.frame.purpose v K.callers
      | .ok (.enter g) A => .run ⟨A.realm, g, A.frame :: K.callers⟩
      | .error e A => Machine.unwind e A.realm A.frame K.callers :=
  Machine.step_eq (h.next? hi)

theorem At.reaches {r' f'} (h : At M K a pre r W f) (hi : K.frame.code.instructions[a]? = some i)
    (hs : (Machine.mk r f K.callers).Agrees) (hx : i.exec ⟨r, f.past f.stack⟩ = .ok .proceed ⟨r', f'⟩) :
    Reaches 1 (.run ⟨r, f, K.callers⟩) (.run ⟨r', f', K.callers⟩) := by
  have hone := h.step hi hs fun e A hA => by rw [hx] at hA; cases hA
  rwa [h.step_eq hi, hx] at hone

theorem At.raises {e r' f'} (h : At M K a pre r W f) (hi : K.frame.code.instructions[a]? = some i)
    (hs : (Machine.mk r f K.callers).Agrees) (hx : i.exec ⟨r, f.past f.stack⟩ = .error e ⟨r', f'⟩)
    (he : e.Visible) : Reaches 1 (.run ⟨r, f, K.callers⟩) (Machine.unwind e r' f' K.callers) := by
  have hone := h.step hi hs fun e A hA => by rw [hx] at hA; cases hA; exact he
  rwa [h.step_eq hi, hx] at hone

end

namespace Runs

variable {M : Mode} {n : Nat} {K : Stage} {x : Eval α} {a b m : Nat} {pre mid : List Value} {post : α → List Value}
  {i : Instruction}

theorem pure {v : α} (hv : post v = pre) : Runs M n K (Pure.pure v) a a pre post :=
  fun r _ f h => .pure ⟨r, f, rfl, hv ▸ h⟩

theorem bind_of {k : α → Eval β} {post' : β → List Value} {P : α → Prop} (h : Runs M n K x a m pre post)
    (hx : ∀ W v W', x W = some (.ok v, W') → P v) (hk : ∀ v, P v → Runs M n K (k v) m b (post v) post') :
    Runs M n K (x >>= k) a b pre post' := by
  intro r W f hf
  refine (h r W f hf).bind fun v W' s hv hs => ?_
  obtain ⟨r', f', rfl, hf'⟩ := hs
  exact hk v (hx W v W' hv) r' W' f' hf'

theorem bind {k : α → Eval β} {post' : β → List Value} (h : Runs M n K x a m pre post)
    (hk : ∀ v, Runs M n K (k v) m b (post v) post') : Runs M n K (x >>= k) a b pre post' :=
  h.bind_of (P := fun _ => True) (fun _ _ _ _ => trivial) fun v _ => hk v

theorem congr {y : Eval α} (h : Runs M n K y a b pre post) (hxy : ∀ r W f, At M K a pre r W f → x W = y W) :
    Runs M n K x a b pre post := by
  exact fun r W f hf => (h r W f hf).of_eq (hxy r W f hf)

theorem skip (h : Runs M n K (Pure.pure ()) a m pre fun _ => mid) (hx : Runs M n K x m b mid post) :
    Runs M n K x a b pre post :=
  h.bind (k := fun _ => x) fun _ => hx

theorem behind {post' : α → List Value} (h : Runs M n K x a m pre post)
    (hk : ∀ v, Runs M n K (Pure.pure v) m b (post v) post') : Runs M n K x a b pre post' := by
  rw [← bind_pure x]
  exact h.bind hk

theorem move (hi : K.frame.code.instructions[a]? = some i) (hp : i.Plain K.frame.code.strict)
    (hx : ∀ r W f, At M K a pre r W f →
      ∃ f', i.exec ⟨r, f.past f.stack⟩ = .ok .proceed ⟨r, f'⟩ ∧ At M K m mid r W f')
    (h : Runs M n K x m b mid post) : Runs M n K x a b pre post := by
  intro r W f hf
  obtain ⟨f', hx, hf'⟩ := hx r W f hf
  exact (h r W f' hf').reaches (hf.reaches hi (hf.agrees hi hp) hx)
    (Nat.le_add_left n 1)

theorem perform {x : Action α} (left : List Value) (hi : K.frame.code.instructions[a]? = some i)
    (hs : ∀ r W f, At M K a pre r W f → (Machine.mk r f K.callers).Agrees)
    (hx : ∀ r W f, At M K a pre r W f →
      i.exec ⟨r, f.past f.stack⟩ = f.resume (fun v => post v ++ K.frame.stack) (left ++ K.frame.stack) (x r))
    (ht : x.Tame) : Runs M n K (Meaning.perform x) a (a + 1) pre post := by
  intro r W f hf
  have hx := hx r W f hf
  have ht := ht.view M r
  cases hr : x r with
  | ok v r' =>
    rw [hr] at hx ht
    have hv : Meaning.perform x W = some (.ok v, { W with realm := M.view r' }) := by
      rw [Meaning.perform, hf.rel.realm, ht.2]
    have hf' : At M K (a + 1) (post v) r' { W with realm := M.view r' } (f.past (post v ++ K.frame.stack)) :=
      ⟨hf.toOn.past.keeps ht.1, (hf.past (post v)).position, rfl, hf.scope⟩
    exact Sim.reaches (hf.reaches hi (hs r W f hf) hx) (.ok hv ⟨r', _, rfl, hf'⟩) (Nat.le_add_left n 1)
  | error e r' =>
    rw [hr] at hx ht
    have he : Meaning.perform x W = some (.error e, { W with realm := M.view r' }) := by
      rw [Meaning.perform, hf.rel.realm, ht.2.1]
    have hf' : On M K r' { W with realm := M.view r' } (f.past (left ++ K.frame.stack)) :=
      hf.toOn.past.keeps ht.1
    exact Sim.reaches (hf.raises hi (hs r W f hf) hx ht.2.2) (.error he ⟨r', _, left, rfl, hf', rfl, ht.2.2⟩)
      (Nat.le_add_left n 1)

end Runs

end ScriptEngine
