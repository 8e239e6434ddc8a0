/-
What single instructions do on the way through a piece of code. A layout does
what an evaluation says when the code between its points runs that way; the
layouts of compound expressions follow from those of their parts by `Does.seq`.
-/
import ScriptEngine.Proofs.Simulation.Basic

namespace ScriptEngine

open Meaning Layout

/-- A setting and an activation that belong to a stage. -/
structure Suits (M : Mode) (K : Stage) (c : Setting) (act : Activation) : Prop where
  unit : K.frame.code = c.unit
  options : c.options = M.options.lowering
  strict : act.strict = c.strict
  unit_strict : c.unit.strict = c.strict
  completion : K.completion = c.completion
  keepsValue : act.keepsValue = c.completion.isSome
  scope : K.frame.scope = act.chain
  chain : act.chain ≠ []
  receiver : K.frame.receiver = act.receiver
  found : Env.Matches K.store c.env act.chain
  taken : ∀ t, c.completion = some t → t < K.taken

theorem Suits.code_strict {M : Mode} {K : Stage} {c : Setting} {act : Activation} (hc : Suits M K c act) :
    K.frame.code.strict = c.strict := by
  rw [hc.unit, hc.unit_strict]

theorem Suits.plain {M : Mode} {K : Stage} {c : Setting} {act : Activation} (hc : Suits M K c act) {i : Instruction}
    (hp : i.Plain c.strict) : i.Plain K.frame.code.strict := by
  rw [hc.code_strict]
  exact hp

/-- The code of a layout does to the operands what an evaluation says. -/
def Does (M : Mode) (n : Nat) (K : Stage) (C : Code) (x : Eval α) (pre : List Value) (post : α → List Value) :
    Prop :=
  ∀ a b, K.taken ≤ a.temps → C a b → Runs M n K x a.pc b.pc pre post

namespace Does

variable {M : Mode} {n : Nat} {K : Stage} {C D : Code} {x : Eval α} {pre mid : List Value} {post : α → List Value}

theorem seq {k : α → Eval β} {post' : β → List Value} (h : Does M n K C x pre post)
    (hk : ∀ v, Does M n K D (k v) (post v) post') : Does M n K (C ++ D) (x >>= k) pre post' := by
  intro a b ha ⟨m, hC, hm, hD⟩
  exact (h a m ha hC).bind fun v => hk v m b (Nat.le_trans ha hm) hD

theorem seq_of {k : α → Eval β} {post' : β → List Value} {P : α → Prop} (h : Does M n K C x pre post)
    (hx : ∀ W v W', x W = some (.ok v, W') → P v) (hk : ∀ v, P v → Does M n K D (k v) (post v) post') :
    Does M n K (C ++ D) (x >>= k) pre post' := by
  intro a b ha ⟨m, hC, hm, hD⟩
  exact (h a m ha hC).bind_of hx fun v hv => hk v hv m b (Nat.le_trans ha hm) hD

theorem skip (h : Does M n K C (pure ()) pre fun _ => mid) (hx : Does M n K D x mid post) :
    Does M n K (C ++ D) x pre post :=
  fun a b ha ⟨m, hC, hm, hD⟩ => (h a m ha hC).skip (hx m b (Nat.le_trans ha hm) hD)

theorem behind {post' : α → List Value} (hx : Does M n K C x pre post)
    (h : ∀ v, Does M n K D (pure ()) (post v) fun _ => post' v) : Does M n K (C ++ D) x pre post' := by
  intro a b ha ⟨m, hC, hm, hD⟩
  refine (hx a m ha hC).behind fun v => ?_
  have hp : (pure v : Eval α) = pure () >>= fun _ => pure v := (pure_bind () fun _ => (pure v : Eval α)).symm
  exact (h v m b (Nat.le_trans ha hm) hD).bind fun _ => .pure rfl

theorem returns {v : α} (h : Does M n K C (pure ()) pre fun _ => post v) : Does M n K C (pure v) pre post :=
  fun a b ha hC => (h a b ha hC).bind (k := fun _ => pure v) fun _ => .pure rfl

theorem map {g : α → β} {post : β → List Value} (h : Does M n K C x pre fun v => post (g v)) :
    Does M n K C (g <$> x) pre post := by
  exact fun a b ha hC => (h a b ha hC).bind fun v => .pure rfl

theorem bind_pure {g : α → β} {post : β → List Value} (h : Does M n K C x pre fun v => post (g v)) :
    Does M n K C (do return g (← x)) pre post :=
  fun a b ha hC => (h a b ha hC).bind fun _ => .pure rfl

theorem nil : Does M n K .nil (pure ()) pre fun _ => pre := by
  intro a b _ h
  cases h
  exact .pure rfl

theorem move {i : Instruction} (hp : i.Plain K.frame.code.strict) (hx : ∀ a r W f, At M K a pre r W f →
      i.exec ⟨r, f.past f.stack⟩ = .ok .proceed ⟨r, f.past (mid ++ K.frame.stack)⟩) :
    Does M n K (Code.op K.frame.code i) (pure ()) pre fun _ => mid := by
  intro a b _ ⟨hi, hb⟩
  cases hb
  refine .move hi hp (fun r W f hf => ?_) (.pure rfl)
  exact ⟨_, hx a.pc r W f hf, hf.past mid⟩

theorem perform {i : Instruction} {x : Action α} (left : List Value) (hp : i.Plain K.frame.code.strict) (ht : x.Tame)
    (hx : ∀ a r W f, At M K a pre r W f →
      i.exec ⟨r, f.past f.stack⟩ = f.resume (fun v => post v ++ K.frame.stack) (left ++ K.frame.stack) (x r)) :
    Does M n K (Code.op K.frame.code i) (Meaning.perform x) pre post := by
  intro a b _ ⟨hi, hb⟩
  cases hb
  exact .perform left hi (fun r W f hf => hf.agrees hi hp)
    (fun r W f hf => hx a.pc r W f hf) ht

end Does

section

variable {M : Mode} {n : Nat} {K : Stage} {c : Setting} {act : Activation} {st : List Value}
variable {a t b p : Nat} {v : Value} {x : Eval α} {post : α → List Value} {op : Opcode}

section

variable (hc : Suits M K c act)
variable {pre : List Value} {x : Action α} {post : α → List Value} {name : String} {a depth index : Nat}
include hc

theorem does_move {i : Instruction} {mid : List Value} (hp : i.Plain c.strict)
    (hx : ∀ r (f : Frame), i.exec ⟨r, f.past (pre ++ K.frame.stack)⟩ =
      .ok .proceed ⟨r, f.past (mid ++ K.frame.stack)⟩) :
    Does M n K (Code.op c.unit i) (pure ()) pre fun _ => mid := by
  rw [← hc.unit]
  refine .move (hc.plain hp) fun a r W f hf => ?_
  rw [hf.stack]
  exact hx r f

theorem does_perform {i : Instruction} (left : List Value) (hp : i.Plain c.strict) (ht : x.Tame)
    (hx : ∀ r (f : Frame), f.scope = act.chain → i.exec ⟨r, f.past (pre ++ K.frame.stack)⟩ =
      f.resume (fun v => post v ++ K.frame.stack) (left ++ K.frame.stack) (x r)) :
    Does M n K (Code.op c.unit i) (perform x) pre post := by
  rw [← hc.unit]
  refine .perform left (hc.plain hp) ht fun a r W f hf => ?_
  rw [hf.stack]
  exact hx r f (hf.scope.trans hc.scope)

/-! ## Operands -/

theorem does_constant (v : Value) : Does M n K (constant c v) (pure ()) st fun _ => v :: st := by
  intro a b ha ⟨k, hk, hl⟩
  rw [emitWith, ← hc.unit] at hl
  refine Does.move (i := ⟨.loadConst, some (.constant k)⟩) rfl (fun a r W f hf => ?_) a b ha hl
  have hk : (f.past f.stack).code.constants[k]? = some v := by rw [← hk, ← hc.unit, ← hf.code]; rfl
  simp only [Instruction.exec, bind, EStateM.bind, Exec.constantOperand, pure, EStateM.pure, Exec.readFrame, hk]
  rw [hf.stack]
  rfl

theorem does_undefined : Does M n K (emit c .loadUndefined) (pure ()) st fun _ => .undefined :: st :=
  does_move hc rfl fun _ _ => rfl

theorem does_null : Does M n K (emit c .loadNull) (pure ()) st fun _ => .null :: st :=
  does_move hc rfl fun _ _ => rfl

theorem does_true : Does M n K (emit c .loadTrue) (pure ()) st fun _ => .boolean true :: st :=
  does_move hc rfl fun _ _ => rfl

theorem does_boolean (b : Bool) : Does M n K (boolean c b) (pure ()) st fun _ => .boolean b :: st := by
  cases b with
  | true =>
    rintro p q hp ⟨-, h⟩
    exact does_true hc p q hp h
  | false =>
    rintro p q - ⟨hn, hi, hq⟩ r W f hf
    cases hq
    rw [← hc.unit] at hn hi
    refine .reaches (hf.reaches hi (hf.agrees_false hi fun name hname => ?_) ?_)
      (.pure ⟨r, _, rfl, hf.past (.boolean false :: st)⟩) (Nat.le_add_left n 1)
    · rw [hn] at hname
      cases hname
    · rw [hf.stack]
      rfl

theorem does_this : Does M n K (emit c .loadThis) (pure ()) st fun _ => act.receiver :: st := by
  rw [emit, ← hc.unit]
  refine .move rfl fun a r W f hf => ?_
  rw [← hc.receiver, ← hf.receiver, hf.stack]
  rfl

theorem does_pop (v : Value) : Does M n K (emit c .pop) (pure ()) (v :: st) fun _ => st :=
  does_move hc rfl fun _ _ => rfl

theorem does_dup (v : Value) : Does M n K (emit c .dup) (pure ()) (v :: st) fun _ => v :: v :: st :=
  does_move hc rfl fun _ _ => rfl

theorem does_dup2 (v w : Value) : Does M n K (emit c .dup2) (pure ()) (w :: v :: st) fun _ => w :: v :: w :: v :: st :=
  does_move hc rfl fun _ _ => rfl

theorem does_swap (v w : Value) : Does M n K (emit c .swap) (pure ()) (w :: v :: st) fun _ => v :: w :: st :=
  does_move hc rfl fun _ _ => rfl

/-! ## Operators -/

theorem does_typeOf (v : Value) : Does M n K (emit c .typeOf) (pure ()) (v :: st) fun _ => .string v.typeOf :: st :=
  does_move hc rfl fun _ _ => rfl

theorem does_not (v : Value) : Does M n K (emit c .not) (pure ()) (v :: st) fun _ => .boolean (!v.toBoolean) :: st :=
  does_move hc rfl fun _ _ => rfl

theorem does_strictEq (v w : Value) :
    Does M n K (emit c .strictEq) (pure ()) (w :: v :: st) fun _ => .boolean (v.strictEquals w) :: st :=
  does_move hc rfl fun _ _ => rfl

theorem does_negate (v : Value) : Does M n K (emit c .neg) (transform negate v) (v :: st) (· :: st) :=
  does_perform hc st rfl (.readStore fun s => by simp [negate]) fun _ _ _ => rfl

theorem does_asNumber (v : Value) : Does M n K (emit c .toNumber) (transform asNumber v) (v :: st) (· :: st) :=
  does_perform hc st rfl (.readStore fun s => by simp [asNumber]) fun _ _ _ => rfl

theorem does_complement (v : Value) : Does M n K (emit c .bitNot) (transform complement v) (v :: st) (· :: st) :=
  does_perform hc st rfl (.readStore fun s => by simp [complement]) fun _ _ _ => rfl

omit hc in
theorem plain_binaryOpcode (op : BinaryOp) : Instruction.Plain c.strict ⟨Lowering.binaryOpcode op, none⟩ := by
  cases op <;> exact rfl

theorem does_binary (op : BinaryOp) (v w : Value) :
    Does M n K (emit c (Lowering.binaryOpcode op)) (applyBinary op v w) (w :: v :: st) (· :: st) := by
  refine does_perform hc st (plain_binaryOpcode op) (tame_binary op v w) fun r f _ => ?_
  cases op with
  | isIn => cases w <;> rfl
  | instanceOf => cases w <;> first | rfl | cases v <;> rfl
  | _ => rfl

/-! ## Variables by name -/

omit hc in
theorem nameOperand_ok {A : Activity} {k : Nat} (op : Opcode) (h : A.frame.code.constants[k]? = some (.string name)) :
    Exec.nameOperand ⟨op, some (.property k)⟩ A = .ok name A := by
  simp only [Exec.nameOperand, Exec.nameAt, bind, EStateM.bind, Exec.readFrame, h]
  rfl

theorem does_named {op : Opcode} (left : List Value) (run : String → Exec Next)
    (hop : ∀ k, Instruction.exec ⟨op, some (.property k)⟩ =
      Exec.nameOperand ⟨op, some (.property k)⟩ >>= run)
    (hp : ∀ k, Instruction.Plain c.strict ⟨op, some (.property k)⟩) (ht : x.Tame)
    (hx : ∀ r (f : Frame), f.scope = act.chain → run name ⟨r, f.past (pre ++ K.frame.stack)⟩ =
      f.resume (fun v => post v ++ K.frame.stack) (left ++ K.frame.stack) (x r)) :
    Does M n K (named c op name) (perform x) pre post := by
  intro a b ha ⟨k, hk, hl⟩
  rw [emitWith, ← hc.unit] at hl
  refine Does.perform left (hc.plain (hp k)) ht (fun a r W f hf => ?_) a b ha hl
  have hk : (f.past f.stack).code.constants[k]? = some (.string name) := by
    rw [← hk, ← hc.unit, ← hf.code]
    rfl
  rw [hop]
  simp only [bind, EStateM.bind, nameOperand_ok op (A := ⟨r, f.past f.stack⟩) hk]
  rw [hf.stack]
  exact hx r f (hf.scope.trans hc.scope)

theorem does_loadName (name : String) : Does M n K (named c .loadName name) (readName act name) st (· :: st) := by
  refine .map (does_named hc st Exec.loadName (fun _ => rfl) (fun _ => rfl)
    (tame_readVariable act.chain name) fun r f hs => ?_)
  have hf : (f.past (st ++ K.frame.stack)).scope = act.chain := hs
  simp only [Exec.loadName, Exec.lookup, bind, EStateM.bind, Exec.readFrame, Exec.readStore, inspect, readVariable, hf]
  cases r.store.lookup act.chain name <;> rfl

theorem does_peekName (name : String) :
    Does M n K (named c .loadNameOrUndefined name) (perform (Realm.readStore (peekVariable act.chain name))) st
      (· :: st) := by
  refine does_named hc st Exec.loadNameOrUndefined (fun _ => rfl) (fun _ => rfl)
    (.readStore (peekVariable_outline act.chain name)) fun r f hs => ?_
  have hf : (f.past (st ++ K.frame.stack)).scope = act.chain := hs
  simp only [Exec.loadNameOrUndefined, Exec.lookup, bind, EStateM.bind, Exec.readFrame, Exec.readStore,
    Realm.readStore, peekVariable, hf]
  cases r.store.lookup act.chain name <;> rfl

theorem does_loadNameWithReceiver (name : String) :
    Does M n K (named c .loadNameWithThis name) (perform (inspect (readVariable act.chain name))) st
      fun p => p.2 :: p.1 :: st := by
  refine does_named hc st Exec.loadNameWithReceiver (fun _ => rfl) (fun _ => rfl)
    (tame_readVariable act.chain name) fun r f hs => ?_
  have hf : (f.past (st ++ K.frame.stack)).scope = act.chain := hs
  simp only [Exec.loadNameWithReceiver, Exec.lookup, bind, EStateM.bind, Exec.readFrame, Exec.readStore, inspect,
    readVariable, hf]
  cases r.store.lookup act.chain name <;> rfl

theorem does_storeName (name : String) (v : Value) :
    Does M n K (named c (if c.strict then .storeNameStrict else .storeName) name) (writeName act name v) (v :: st)
      fun _ => v :: st := by
  have hx : ∀ r (f : Frame), f.scope = act.chain →
      Exec.storeName name c.strict ⟨r, f.past (v :: st ++ K.frame.stack)⟩ =
        f.resume (fun _ => v :: st ++ K.frame.stack) (v :: st ++ K.frame.stack)
          (writeVariable act.chain act.strict name v r) := by
    intro r f hs
    rw [hc.strict]
    obtain ⟨code, position, stack, scope, receiver, temporaries, keys, handlers, purpose⟩ := f
    cases hs
    simp only [Exec.storeName, Exec.peek, Exec.takeOff, Exec.readFrame, Exec.withStore, Exec.inRealm,
      writeVariable, Realm.withStore, Realm.modifyStore, bind, EStateM.bind, Frame.past, List.cons_append,
      List.head?_cons]
    cases (r.store.assign act.chain name v).1 with
    | true => rfl
    | false => cases c.strict <;> rfl
  cases hst : c.strict with
  | true =>
    rw [hst] at hx
    exact does_named hc (v :: st) (Exec.storeName · true) (fun _ => rfl) (fun _ => rfl)
      (tame_writeVariable act.chain act.strict name v) hx
  | false =>
    rw [hst] at hx
    exact does_named hc (v :: st) (Exec.storeName · false) (fun _ => rfl) (fun _ => by rw [hst]; exact rfl)
      (tame_writeVariable act.chain act.strict name v) hx

theorem does_deleteName (name : String) :
    Does M n K (named c .deleteName name) (perform (deleteVariable act.chain name)) st (.boolean · :: st) := by
  refine does_named hc st Exec.deleteName (fun _ => rfl) (fun _ => rfl)
    (tame_deleteVariable act.chain name) fun r f hs => ?_
  have hf : (f.past (st ++ K.frame.stack)).scope = act.chain := hs
  simp only [Exec.deleteName, bind, EStateM.bind, Exec.readFrame, hf]
  rfl

/-! ## Slots -/

theorem At.slotOf {r W f name depth index} (h : At M K a st r W f) (hr : c.env.resolve name = .slot depth index) :
    ∃ ref, r.store.SlotOf f.scope name depth index ref := by
  rw [h.scope, hc.scope]
  exact (hc.found.keeps h.records).slotOf hr

theorem At.agrees_slot {r W f name op depth index} (h : At M K a st r W f) (hop : op = .loadSlot ∨ op = .storeSlot)
    (hr : c.env.resolve name = .slot depth index) (hn : K.frame.code.slotNames[a]? = some name)
    (hi : K.frame.code.instructions[a]? = some ⟨op, some (.slot depth index)⟩) :
    (Machine.mk r f K.callers).Agrees := by
  have hnext := h.next? hi
  refine ⟨fun op' depth' index' _ hi' => ?_, fun name' hi' => ?_, fun operand hi' => ?_, fun k u hi' => ?_⟩
  · rw [hnext] at hi'
    cases hi'
    obtain ⟨ref, hs⟩ := h.slotOf hc hr
    exact ⟨name, ref, by rw [h.code, h.position]; exact hn, hs⟩
  all_goals
    rw [hnext] at hi'
    rcases hop with rfl | rfl <;> cases hi'

theorem does_slot {op : Opcode} (hop : op = .loadSlot ∨ op = .storeSlot) (left : List Value)
    (hr : c.env.resolve name = .slot depth index) (ht : x.Tame)
    (hx : ∀ r (f : Frame) ref, f.scope = act.chain → r.store.SlotOf f.scope name depth index ref →
      Instruction.exec ⟨op, some (.slot depth index)⟩ ⟨r, f.past (pre ++ K.frame.stack)⟩ =
        f.resume (fun v => post v ++ K.frame.stack) (left ++ K.frame.stack) (x r)) :
    Does M n K (slot c op name depth index) (perform x) pre post := by
  intro a b ha ⟨hn, hi, hb⟩
  cases hb
  rw [← hc.unit] at hn hi
  refine .perform left hi (fun r W f hf => hf.agrees_slot hc hop hr hn hi) (fun r W f hf => ?_) ht
  obtain ⟨ref, hs⟩ := hf.slotOf hc hr
  rw [hf.stack]
  exact hx r f ref (hf.scope.trans hc.scope) hs

theorem does_loadSlot (hr : c.env.resolve name = .slot depth index) :
    Does M n K (slot c .loadSlot name depth index) (perform (inspect (readVariable act.chain name))) st
      fun p => p.1 :: st := by
  refine does_slot hc (.inl rfl) st hr (tame_readVariable act.chain name) fun r f ref hf hs => ?_
  obtain ⟨v, hv⟩ := hs.slot?
  have hl : r.store.lookup act.chain name = some (v, .undefined) := by rw [← hf, hs.lookup, hv]; rfl
  have hx : Exec.loadSlot depth index ⟨r, f.past (st ++ K.frame.stack)⟩ =
      .ok .proceed ⟨r, f.past (v :: (st ++ K.frame.stack))⟩ := by
    have hd : (f.past (st ++ K.frame.stack)).scope[depth]? = some ref := hs.at_depth
    simp only [Exec.loadSlot, Exec.recordAt, Exec.readStore, Exec.readFrame, bind, EStateM.bind, hd,
      Option.bind_some, hv]
    rfl
  simp only [inspect, readVariable, hl]
  exact hx

theorem does_storeSlot (hr : c.env.resolve name = .slot depth index) (v : Value) :
    Does M n K (slot c .storeSlot name depth index) (writeName act name v) (v :: st) fun _ => v :: st := by
  refine does_slot hc (.inr rfl) (v :: st) hr (tame_writeVariable act.chain act.strict name v) fun r f ref hf hs => ?_
  have hx : Exec.storeSlot depth index ⟨r, f.past (v :: st ++ K.frame.stack)⟩ =
      .ok .proceed ⟨{ r with store := (r.store.setSlot ref index v).2 }, f.past (v :: st ++ K.frame.stack)⟩ := by
    simp only [Exec.storeSlot, Exec.recordAt, Exec.readFrame, Exec.peek, Exec.takeOff, Exec.withStore, Exec.inRealm,
      Realm.withStore, bind, EStateM.bind, Frame.past, List.cons_append, List.head?_cons, hs.at_depth, hs.setSlot v]
    rfl
  have hw : writeVariable act.chain act.strict name v r =
      .ok () { r with store := (r.store.setSlot ref index v).2 } := by
    simp only [writeVariable, Realm.withStore, bind, EStateM.bind, ← hf, hs.assign v, hs.setSlot v]
    rfl
  rw [hw]
  exact hx

/-! ## Variables -/

theorem does_load (name : String) : Does M n K (load c name) (readName act name) st (· :: st) := by
  rw [load]
  cases hr : c.env.resolve name with
  | slot depth index => exact .map (does_loadSlot hc hr)
  | byName => exact does_loadName hc name

theorem does_store (name : String) (v : Value) :
    Does M n K (store c name) (writeName act name v) (v :: st) fun _ => v :: st := by
  rw [store]
  cases hr : c.env.resolve name with
  | slot depth index => exact does_storeSlot hc hr v
  | byName => exact does_storeName hc name v

theorem At.lookup {r W f name depth index} (h : At M K a st r W f) (hr : c.env.resolve name = .slot depth index) :
    ∃ v, W.realm.store.lookup act.chain name = some (v, .undefined) := by
  obtain ⟨ref, hs⟩ := h.slotOf hc hr
  obtain ⟨v, hv⟩ := hs.slot?
  refine ⟨v, ?_⟩
  rw [h.rel.realm, M.view_read r Store.lookup_outline, ← hc.scope, ← h.scope, hs.lookup, hv]
  rfl

omit hc in
theorem readName_of_lookup {W : World} {v receiver : Value}
    (h : W.realm.store.lookup act.chain name = some (v, receiver)) :
    readName act name W = some (.ok v, W) := by
  rw [readName, ← bind_pure_comp, bind_apply, perform, inspect, readVariable, h]
  rfl

theorem does_peek (name : String) :
    Does M n K (match c.env.resolve name with
      | .slot .. => load c name
      | .byName => named c .loadNameOrUndefined name)
      (perform (Realm.readStore (peekVariable act.chain name))) st (· :: st) := by
  cases hr : c.env.resolve name with
  | slot depth index =>
    refine fun a b ha hl => (does_load hc name a b ha hl).congr fun r W f hf => ?_
    obtain ⟨v, hv⟩ := hf.lookup hc hr
    rw [readName_of_lookup hv, perform, Realm.readStore, peekVariable, hv]
    rfl
  | byName => exact does_peekName hc name

theorem does_readWithReceiver (name : String) :
    Does M n K (match c.env.resolve name with
      | .slot .. => load c name ++ emit c .loadUndefined
      | .byName => named c .loadNameWithThis name)
      (perform (inspect (readVariable act.chain name))) st fun p => p.2 :: p.1 :: st := by
  cases hr : c.env.resolve name with
  | slot depth index =>
    have h : Does M n K (load c name ++ emit c .loadUndefined) (readName act name >>= fun v => pure (v, .undefined)) st
        fun p => p.2 :: p.1 :: st :=
      (does_load hc name).seq fun v => .returns (does_undefined hc)
    refine fun a b ha hl => (h a b ha hl).congr fun r W f hf => ?_
    obtain ⟨v, hv⟩ := hf.lookup hc hr
    rw [bind_apply, readName_of_lookup hv, perform, inspect, readVariable, hv]
    rfl
  | byName => exact does_loadNameWithReceiver hc name

theorem does_kept (hr : c.env.resolve name = .slot depth index) :
    Does M n K (kept c name) (pure false) st (.boolean · :: st) := by
  rintro p q - ⟨hn, hi, hq⟩ r W f hf
  cases hq
  rw [← hc.unit] at hn hi
  refine .reaches (hf.reaches hi (hf.agrees_false hi fun name' hname => ?_) ?_)
    (.pure ⟨r, _, rfl, hf.past (.boolean false :: st)⟩) (Nat.le_add_left n 1)
  · rw [hn] at hname
    cases hname
    obtain ⟨ref, hs⟩ := hf.slotOf hc hr
    exact ⟨depth, index, ref, hs⟩
  · rw [hf.stack]
    rfl

theorem does_delete (name : String) :
    Does M n K (match c.env.resolve name with
      | .slot .. => kept c name
      | .byName => named c .deleteName name)
      (perform (deleteVariable act.chain name)) st (.boolean · :: st) := by
  cases hr : c.env.resolve name with
  | slot depth index =>
    refine fun a b ha hl => (does_kept hc hr a b ha hl).congr fun r W f hf => ?_
    obtain ⟨ref, hs⟩ := hf.slotOf hc hr
    have hx : deleteVariable act.chain name r = .ok false r := by
      rw [deleteVariable, Realm.withStore, ← hc.scope, ← hf.scope, hs.deleteBinding]
    have ht := (tame_deleteVariable act.chain name).view M r
    rw [hx] at ht
    rw [perform, hf.rel.realm, ht.2, ← hf.rel.realm]
    rfl
  | byName => exact does_deleteName hc name

/-! ## Properties and objects -/

theorem does_getProperty (base key : Value) :
    Does M n K (emit c .getProperty) (getProperty base key) (key :: base :: st) (· :: st) := by
  refine does_perform hc st rfl (tame_readProperty base key) fun r f _ => ?_
  cases base <;> rfl

theorem does_setProperty (base key v : Value) :
    Does M n K (emit c .setProperty) (perform (writeProperty base key v)) (v :: key :: base :: st)
      fun _ => v :: st := by
  refine does_perform hc st rfl (tame_writeProperty base key v) fun r f _ => ?_
  cases base <;> rfl

theorem does_deleteProperty (base key : Value) :
    Does M n K (emit c .deleteProperty) (perform (deleteProperty base key)) (key :: base :: st) (.boolean · :: st) := by
  refine does_perform hc st rfl (tame_deleteProperty base key) fun r f _ => ?_
  cases base <;> rfl

theorem does_defineProperty (made : ObjectRef) (key : String) (v : Value) :
    Does M n K (named c .defineProperty key) (perform (defineProperty made key v)) (v :: .object made :: st)
      fun _ => .object made :: st :=
  does_named hc st Exec.defineProperty (fun _ => rfl) (fun _ => rfl) (tame_defineProperty made key v)
    fun _ _ _ => rfl

theorem does_newArray (length : Nat) :
    Does M n K (emitWith c .newArray (.count length)) (perform (makeObject (.array length))) st (.object · :: st) :=
  does_perform hc st rfl (tame_makeObject _) fun _ _ _ => rfl

theorem does_newObject : Does M n K (emit c .newObject) (perform (makeObject .empty)) st (.object · :: st) :=
  does_perform hc st rfl (tame_makeObject _) fun _ _ _ => rfl

end

/-! ## Temporaries -/

theorem Suits.inner {K' : Stage} (hc : Suits M K c act) (hw : K.Within K')
    (hs : K'.frame.scope = K.frame.scope) : Suits M K' c act where
  unit := hw.code.trans hc.unit
  options := hc.options
  strict := hc.strict
  unit_strict := hc.unit_strict
  completion := hw.completion.trans hc.completion
  keepsValue := hc.keepsValue
  scope := hs.trans hc.scope
  chain := hc.chain
  receiver := hw.receiver.trans hc.receiver
  found := hc.found.keeps hw.records
  taken t ht := Nat.lt_of_lt_of_le (hc.taken t ht) hw.taken

theorem Suits.later {taken : Nat} {r W f} (hc : Suits M K c act) (h : At M K a st r W f) (ht : K.taken ≤ taken) :
    Suits M (K.sub f r taken) c act :=
  hc.inner (h.isLater ht).toWithin h.scope

theorem Suits.completion_ne (hc : Suits M K c act) (ht : K.taken ≤ t) : K.completion ≠ some t := by
  intro h
  rw [hc.completion] at h
  exact Nat.lt_irrefl t (Nat.lt_of_lt_of_le (hc.taken t h) ht)

theorem On.setTemporary {r W f} (hc : Suits M K c act) (h : On M K r W f) (ht : K.taken ≤ t) (v : Value) :
    On M K r W (f.setTemporary t v) := by
  refine ⟨h.rel, h.records, h.code, h.receiver, h.purpose, h.handlers, fun t' hlt hne => ?_, h.keys, fun t' hs => ?_⟩
  · rw [Frame.temporary_setTemporary, if_neg (by omega), h.temporaries t' hlt hne]
  · have hlt := hc.taken t' (hc.completion ▸ hs)
    rw [Frame.temporary_setTemporary, if_neg (by omega), h.value t' hs]

theorem At.storeLocal {r W f} (hf : At M K a (v :: st) r W f) (hc : Suits M K c act)
    (hi : c.unit.instructions[a]? = some ⟨.storeLocal, some (.temporary t)⟩) :
    Reaches 1 (.run ⟨r, f, K.callers⟩) (.run ⟨r, (f.past (st ++ K.frame.stack)).setTemporary t v, K.callers⟩) := by
  rw [← hc.unit] at hi
  refine hf.reaches hi (hf.agrees hi rfl) ?_
  rw [hf.stack]
  rfl

theorem At.stored {r W f} (hf : At M K a (v :: st) r W f) (hc : Suits M K c act) (ht : K.taken ≤ t) :
    At M K (a + 1) st r W ((f.past (st ++ K.frame.stack)).setTemporary t v) :=
  ⟨(hf.past st).setTemporary hc ht v, (hf.past st).position, rfl, hf.scope⟩

theorem runs_storeLocal (hc : Suits M K c act) (hi : c.unit.instructions[a]? = some ⟨.storeLocal, some (.temporary t)⟩)
    (ht : K.taken ≤ t)
    (h : ∀ K', Suits M K' c act → K'.taken = t + 1 → K'.frame.temporary t = v →
      Runs M n K' x (a + 1) b st post) :
    Runs M n K x a b (v :: st) post := by
  intro r W f hf
  have hf' := hf.stored hc ht
  have hle : K.taken ≤ t + 1 := Nat.le_succ_of_le ht
  have hv : (K.sub ((f.past (st ++ K.frame.stack)).setTemporary t v) r (t + 1)).frame.temporary t = v :=
    (Frame.temporary_setTemporary _ t t v).trans (if_pos rfl)
  exact Sim.reaches (hf.storeLocal hc hi) ((h _ (hc.later hf' hle) rfl hv r W _ hf'.later).mono
    (fun w W' s hs => hs.back (hf'.isLater hle)) fun e W' s hs => hs.back (hf'.isLater hle)) (Nat.le_add_left n 1)

theorem runs_keep {D : Code} {a b : Point} (hc : Suits M K c act) (ht : K.taken ≤ t) (ha : t + 1 ≤ a.temps)
    (hl : (emitWith c .storeLocal (.temporary t) ++ D) a b)
    (hD : ∀ K', Suits M K' c act → K'.taken = t + 1 → K'.frame.temporary t = v → Does M n K' D x st post) :
    Runs M n K x a.pc b.pc (v :: st) post := by
  obtain ⟨m, ⟨hi, hm⟩, -, hD'⟩ := hl
  cases hm
  refine runs_storeLocal hc hi ht fun K' hc' ht' hv => ?_
  exact hD K' hc' ht' hv _ b (by rw [ht']; exact ha) hD'

theorem does_loadKept (hc : Suits M K c act) (ht : K.taken = t + 1) (hv : K.frame.temporary t = v)
    (hne : c.completion ≠ some t) :
    Does M n K (emitWith c .loadLocal (.temporary t)) (pure ()) st fun _ => v :: st := by
  rw [emitWith, ← hc.unit]
  refine .move rfl fun a r W f hf => ?_
  rw [← hv, ← hf.temporaries t (by omega) (by rw [hc.completion]; exact hne), hf.stack]
  rfl

/-! ## Jumps -/

theorem At.jump {pre : List Value} {r W f} (h : At M K a pre r W f) (st : List Value) :
    At M K p st r W { f.past (st ++ K.frame.stack) with position := p } :=
  ⟨⟨h.rel, h.records, h.code, h.receiver, h.purpose, h.handlers, h.temporaries, h.keys, h.value⟩, rfl, rfl, h.scope⟩

theorem At.jumps {r W f} (hf : At M K a st r W f) (hc : Suits M K c act)
    (hi : c.unit.instructions[a]? = some ⟨.jump, some (.target p)⟩) :
    ∃ f', Reaches 1 (.run ⟨r, f, K.callers⟩) (.run ⟨r, f', K.callers⟩) ∧ At M K p st r W f' := by
  rw [← hc.unit] at hi
  refine ⟨_, hf.reaches hi (hf.agrees hi rfl) ?_, hf.jump st⟩
  rw [hf.stack]
  rfl

theorem At.jumpsWhen {r W f} (truth : Bool) (hf : At M K a (v :: st) r W f) (hc : Suits M K c act)
    (hop : op = if truth then .jumpIfTrue else .jumpIfFalse)
    (hi : c.unit.instructions[a]? = some ⟨op, some (.target p)⟩) :
    ∃ f', Reaches 1 (.run ⟨r, f, K.callers⟩) (.run ⟨r, f', K.callers⟩) ∧
      At M K (if v.toBoolean == truth then p else a + 1) st r W f' := by
  rw [← hc.unit] at hi
  have hp : Instruction.Plain K.frame.code.strict ⟨op, some (.target p)⟩ := by
    cases truth <;> cases hop <;> exact rfl
  have hx : Instruction.exec ⟨op, some (.target p)⟩ = Exec.jumpWhen truth p := by
    cases truth <;> cases hop <;> rfl
  have hs := hf.agrees hi hp
  by_cases hv : (v.toBoolean == truth) = true
  · refine ⟨{ f.past (st ++ K.frame.stack) with position := p }, hf.reaches hi hs ?_,
      by rw [if_pos hv]; exact hf.jump st⟩
    rw [hx, hf.stack]
    simp only [Exec.jumpWhen, Exec.pop, Exec.takeOff, Frame.pop, bind, EStateM.bind, Frame.past, List.cons_append,
      List.head?_cons, List.tail_cons, hv, if_true]
    rfl
  · refine ⟨f.past (st ++ K.frame.stack), hf.reaches hi hs ?_, by rw [if_neg hv]; exact hf.past st⟩
    rw [hx, hf.stack]
    simp only [Exec.jumpWhen, Exec.pop, Exec.takeOff, Frame.pop, bind, EStateM.bind, Frame.past, List.cons_append,
      List.head?_cons, List.tail_cons, hv]
    rfl

theorem runs_jump (hc : Suits M K c act) (hi : c.unit.instructions[a]? = some ⟨.jump, some (.target p)⟩)
    (h : Runs M n K x p b st post) :
    Runs M n K x a b st post := by
  intro r W f hf
  obtain ⟨f', hr, hf'⟩ := hf.jumps hc hi
  exact (h r W f' hf').reaches hr (Nat.le_add_left n 1)

theorem runs_jumpWhen (truth : Bool) (hc : Suits M K c act) (hop : op = if truth then .jumpIfTrue else .jumpIfFalse)
    (hi : c.unit.instructions[a]? = some ⟨op, some (.target p)⟩)
    (h : Runs M n K x (if v.toBoolean == truth then p else a + 1) b st post) :
    Runs M n K x a b (v :: st) post := by
  intro r W f hf
  obtain ⟨f', hr, hf'⟩ := hf.jumpsWhen truth hc hop hi
  exact (h r W f' hf').reaches hr (Nat.le_add_left n 1)

theorem runs_shortCircuit (truth : Bool) (hc : Suits M K c act) (hop : op = if truth then .logicalOr else .logicalAnd)
    (hi : c.unit.instructions[a]? = some ⟨op, some (.target p)⟩)
    (hjump : v.toBoolean = truth → Runs M n K x p b (v :: st) post)
    (hgo : v.toBoolean ≠ truth → Runs M n K x (a + 1) b st post) :
    Runs M n K x a b (v :: st) post := by
  rw [← hc.unit] at hi
  have hp : Instruction.Plain K.frame.code.strict ⟨op, some (.target p)⟩ := by
    cases truth <;> cases hop <;> exact rfl
  have hx : Instruction.exec ⟨op, some (.target p)⟩ = Exec.shortCircuit truth p := by
    cases truth <;> cases hop <;> rfl
  by_cases hv : v.toBoolean = truth
  · refine .move hi hp (fun r W f hf => ⟨_, ?_, hf.jump (v :: st)⟩) (hjump hv)
    rw [hx, hf.stack]
    simp only [Exec.shortCircuit, Exec.peek, Exec.takeOff, bind, EStateM.bind, Frame.past, List.cons_append,
      List.head?_cons, beq_iff_eq, hv, if_true]
    rfl
  · refine .move hi hp (fun r W f hf => ⟨_, ?_, hf.past st⟩) (hgo hv)
    rw [hx, hf.stack]
    simp only [Exec.shortCircuit, Exec.peek, Exec.takeOff, bind, EStateM.bind, Frame.past, List.cons_append,
      List.head?_cons, beq_iff_eq, hv, if_false]
    rfl

end

end ScriptEngine
