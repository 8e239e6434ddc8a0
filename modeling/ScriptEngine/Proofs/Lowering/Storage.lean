/-
The storage of variables agrees with the code. Each record on the scope chain
of running code stands for something of the program: the variables of a unit, the
name of a function expression, a caught exception or the object of a `with`
statement. Which records these are at an instruction is known when the code is
lowered (`CodeUnit.Scoped`), and slots are addressed only in front of the first
record whose variables are looked up by name. Main statement: `storage_covers`.
-/
import ScriptEngine.Proofs.Code.Nesting
import ScriptEngine.Proofs.Lowering.Unit

namespace ScriptEngine

open Layout

/-! ## Scope chains -/

inductive Link
  /-- The variables of a unit. -/
  | unit (storage : Storage)
  /-- The name of a function expression. -/
  | own
  /-- A caught exception. -/
  | caught
  /-- The object of a `with` statement. -/
  | object
  deriving DecidableEq

namespace Link

def isStatic : Link → Bool
  | .unit .static | .own | .caught => true
  | .unit .dynamic | .object => false

/-- Slots in these scopes are slots in the records in front of the first one without slots. -/
def Views (chain : List Link) (env : Env) : Prop := env.length = (chain.takeWhile isStatic).length

variable {chain : List Link} {env : Env} {l : Link}

theorem Views.cons (h : Views chain env) (hl : l.isStatic = true) (names : Array String) :
    Views (l :: chain) (names :: env) := by
  rw [Views, List.takeWhile_cons, if_pos hl, List.length_cons, List.length_cons, h]

theorem Views.nil (hl : l.isStatic = false) : Views (l :: chain) [] := by
  rw [Views, List.takeWhile_cons, hl]
  rfl

theorem Views.getElem? (h : Views chain env) {depth : Nat} (hd : depth < env.length) :
    ∃ l, chain[depth]? = some l ∧ l.isStatic = true := by
  rw [h] at hd
  refine ⟨_, ?_, List.all_eq_true.1 List.all_takeWhile _ (List.getElem_mem hd)⟩
  have hfront : chain.takeWhile isStatic <+: chain := List.takeWhile_prefix _
  rw [hfront.getElem hd]
  exact List.getElem?_eq_getElem _

end Link

/-- The records in front of the code of a unit when it starts, if it was made where `outer` is the chain. -/
def CodeUnit.links (u : CodeUnit) (outer : List Link) : List Link :=
  .unit u.storage :: if u.bindsOwnName then .own :: outer else outer

namespace Instruction

/-- The record that an instruction puts in front of the chain. -/
def link (i : Instruction) : Link := if i.opcode = .pushWithScope then .object else .caught

/-- The chains agree with the ways that control takes from the instruction at a position. Only the records
that instructions put there are taken away. -/
def Carries (i : Instruction) (p : Nat) (chain : Nat → List Link) : Prop :=
  match i.transfer with
  | .falls | .closesRegion => chain (p + 1) = chain p
  | .jumps t => chain t = chain p
  | .tests t | .shortcuts t | .opensRegion t => chain t = chain p ∧ chain (p + 1) = chain p
  | .pushesScope => chain (p + 1) = i.link :: chain p
  | .popsScope => ∃ l ∈ [Link.caught, .object], chain p = l :: chain (p + 1)
  | .ends => True

/-- The instruction addresses a slot only where the records up to it have slots, and only a unit whose
variables are looked up by name calls `eval` by its name or searches an object. -/
structure Stored (i : Instruction) (storage : Storage) (chain : List Link) : Prop where
  slot : i.opcode = .loadSlot ∨ i.opcode = .storeSlot → ∃ depth index, i.operand = some (.slot depth index) ∧
    ∀ j, j ≤ depth → ∃ l, chain[j]? = some l ∧ l.isStatic = true
  dynamic : i.opcode = .callEval ∨ i.opcode = .pushWithScope → storage = .dynamic

theorem Stored.of_isPlain {i : Instruction} (h : i.isPlain = true) (storage : Storage) (chain : List Link) :
    i.Stored storage chain := by
  obtain ⟨op, operand⟩ := i
  refine ⟨?_, ?_⟩ <;> rintro (rfl | rfl) <;> cases h

end Instruction

/-- Each instruction of the unit has its scope chain, with which its slots agree, and so for the units of the
functions in it where their closures are made. -/
inductive CodeUnit.Scoped : List Link → CodeUnit → Prop
  | intro {outer : List Link} {u : CodeUnit} (chain : Nat → List Link) (start : chain 0 = u.links outer)
      (carries : ∀ (p : Nat) i, u.instructions[p]? = some i → i.Carries p chain)
      (stored : ∀ (p : Nat) i, u.instructions[p]? = some i → i.Stored u.storage (chain p))
      (made : ∀ k, k < u.functions.size → ∃ p : Nat, u.instructions[p]? = some ⟨.closure, some (.function k)⟩)
      (inner : ∀ (p k : Nat) v, u.instructions[p]? = some ⟨.closure, some (.function k)⟩ → u.functions[k]? = some v →
        Scoped (chain p) v) : Scoped outer u

/-! ## Chains of shapes -/

namespace CodeUnit

variable {u : CodeUnit} {outer : List Link}

/-- The record of an open construct, by the instruction that opened it. -/
def link? (u : CodeUnit) : Open → Option Link
  | .scope e => some ((u.instructions[e]?.map Instruction.link).getD .caught)
  | .attempt _ => none

def chain (u : CodeUnit) (outer : List Link) (C : List Open) : List Link := C.filterMap u.link? ++ u.links outer

theorem chain_scope {e : Nat} {i : Instruction} (hi : u.instructions[e]? = some i) (C : List Open) :
    u.chain outer (.scope e :: C) = i.link :: u.chain outer C := by
  have hlink : u.link? (.scope e) = some i.link := by rw [link?, hi, Option.map_some, Option.getD_some]
  rw [chain, List.filterMap_cons_some hlink]
  rfl

theorem exists_chain_scope (e : Nat) (C : List Open) :
    ∃ l ∈ [Link.caught, .object], u.chain outer (.scope e :: C) = l :: u.chain outer C := by
  refine ⟨_, ?_, rfl⟩
  cases u.instructions[e]? with
  | none => exact .head _
  | some i =>
    simp only [Option.map_some, Option.getD_some, Instruction.link]
    split <;> simp

theorem chain_attempt (e : Nat) (C : List Open) : u.chain outer (.attempt e :: C) = u.chain outer C := by
  rw [chain, List.filterMap_cons_none rfl]
  rfl

end CodeUnit

/-- What is asked of instructions for the storage of variables to agree with them. -/
def Rules.storage (u : CodeUnit) (outer : List Link) : Rules u where
  flat := False
  dynamic := u.storage = .dynamic
  sees env C := Link.Views (u.chain outer C) env
  fits C i := i.Stored u.storage (u.chain outer C) ∧ ∀ k v, i = ⟨.closure, some (.function k)⟩ →
    u.functions[k]? = some v → ∃ o env src, Lowered o env src v ∧ Link.Views (u.chain outer C) env
  plain h := ⟨.of_isPlain h _ _, by rintro k v rfl; cases h⟩
  slot := by
    rintro env C op depth index hop hsees hd
    refine ⟨⟨fun _ => ⟨depth, index, rfl, fun j hj => hsees.getElem? (by omega)⟩, ?_⟩, ?_⟩
    · rintro (rfl | rfl) <;> rcases hop with h | h <;> cases h
    · rintro k v h
      cases h
  closure := by
    intro o env src C k v hsees hv hl
    refine ⟨⟨?_, ?_⟩, ?_⟩
    · rintro (h | h) <;> cases h
    · rintro (h | h) <;> cases h
    · rintro _ _ ⟨⟩ hv'
      cases hv.symm.trans hv'
      exact ⟨o, env, src, hl, hsees⟩
  eval h := by
    refine ⟨⟨?_, fun _ => h⟩, ?_⟩
    · rintro (h | h) <;> cases h
    · rintro k v h
      cases h
  withScope h := by
    refine ⟨⟨?_, fun _ => h⟩, ?_⟩
    · rintro (h | h) <;> cases h
    · rintro k v h
      cases h
  attempt h := by
    rw [CodeUnit.chain_attempt]
    exact h
  caught name h hi := by
    rw [CodeUnit.chain_scope hi]
    exact h.cons rfl _
  object hi := by
    rw [CodeUnit.chain_scope hi]
    exact .nil rfl

theorem Shape.Flows.carries {u : CodeUnit} {X : Prop} {size p : Nat} {shape : Nat → Shape} {i : Instruction}
    (hf : (shape p).Flows X (fun q T => q < size ∧ shape q = T) p i) (hi : u.instructions[p]? = some i)
    (outer : List Link) : i.Carries p fun q => u.chain outer (shape q).opened := by
  have h := hf.2
  revert h
  unfold Instruction.Carries
  cases i.transfer with
  | falls =>
    rintro ⟨-, h⟩
    simp only [h, Shape.after]
  | jumps t =>
    rintro ⟨-, h⟩
    simp only [h]
  | tests t =>
    rintro ⟨⟨-, h⟩, -, h'⟩
    simp only [h, h', Shape.after, and_self]
  | shortcuts t =>
    rintro ⟨⟨-, h⟩, -, h'⟩
    simp only [h, h', Shape.after, and_self]
  | opensRegion t =>
    rintro ⟨-, ⟨-, h⟩, -, h'⟩
    simp only [h, h', CodeUnit.chain_attempt, and_self]
  | closesRegion =>
    rintro ⟨e, C, hC, -, h⟩
    simp only [h, hC, CodeUnit.chain_attempt]
  | pushesScope =>
    rintro ⟨-, h⟩
    simp only [h, CodeUnit.chain_scope hi]
  | popsScope =>
    rintro ⟨e, C, hC, -, h⟩
    simp only [h, hC]
    exact CodeUnit.exists_chain_scope e C
  | ends => exact fun _ => trivial

/-! ## Units -/

theorem scoped_of_layout {c : Setting} (hregions : c.regions = []) {outer : List Link}
    (hsees : Link.Views (c.unit.links outer) c.env) {body : List Stmt}
    (hdynamic : bodyIsDynamic body = true → c.unit.storage = .dynamic) {functions : List (String × FunctionTree)}
    {t : Nat} {q : Point} (hsize : q.pc = c.unit.instructions.size) (hentry : entryAt c functions body ⟨0, t⟩ q)
    (hcloses : c.unit.Closes)
    (hinner : ∀ v ∈ c.unit.functions, ∀ o env src, Lowered o env src v → ∀ L, Link.Views L env → v.Scoped L) :
    c.unit.Scoped outer := by
  obtain ⟨shape, hshaped, hfits, -⟩ :=
    entry_shaped (Q := .storage c.unit outer) hregions hsees False.elim hdynamic hentry
  have hlt : ∀ {p : Nat} {i}, c.unit.instructions[p]? = some i → p < q.pc := by
    intro p i hi
    rw [hsize]
    exact (Array.getElem?_eq_some_iff.1 hi).1
  refine .intro (fun p => c.unit.chain outer (shape p).opened) ?_ (fun p i hi => ?_) (fun p i hi => ?_) (fun k hk => ?_)
    fun p k v hi hv => ?_
  · simp only [hshaped.start]
    rfl
  · obtain ⟨j, hj, hf⟩ := hshaped.flows p (hlt hi)
    cases hi.symm.trans hj
    exact hf.carries hi outer
  · exact (hfits p i (hlt hi) hi).1
  · exact (hcloses k _ (Array.getElem?_eq_getElem hk)).2
  · obtain ⟨o, env, src, hl, hviews⟩ := (hfits p _ (hlt hi) hi).2 k v rfl hv
    exact hinner v (Array.mem_of_getElem? hv) o env src hl _ hviews

theorem sizeOf_lt_of_mem_functions {u v : CodeUnit} (h : v ∈ u.functions) : sizeOf v < sizeOf u := by
  have hv := Array.sizeOf_lt_of_mem h
  obtain ⟨⟩ := u
  simp only [CodeUnit.mk.sizeOf_spec]
  simp only at hv
  omega

theorem Link.Views.bodyEnv {env : Env} {src : Meaning.Source} {u : CodeUnit} {outer : List Link}
    (h : Link.Views outer env) (hout : u.outline = src.outline) :
    Link.Views (u.links outer) (Lowering.bodyEnv src env) := by
  have hstorage : u.storage = storageOf src.tree.body := congrArg CodeUnit.storage hout
  have hown : u.bindsOwnName = src.bindsOwnName := congrArg CodeUnit.bindsOwnName hout
  have houter : Link.Views (if u.bindsOwnName then .own :: outer else outer) (Lowering.ownEnv src env) := by
    rw [hown, Lowering.ownEnv]
    split
    · exact h.cons rfl _
    · exact h
  rw [CodeUnit.links, hstorage, Lowering.bodyEnv]
  cases storageOf src.tree.body with
  | «static» => exact houter.cons rfl _
  | dynamic => exact .nil rfl

theorem Lowered.scoped {o : LoweringOptions} {env : Env} {src : Meaning.Source} {u : CodeUnit} {outer : List Link}
    (h : Lowered o env src u) (hviews : Link.Views outer env) : u.Scoped outer := by
  -- By recursion on the unit: the units of the functions in it are smaller, whatever scopes they are made in.
  obtain ⟨hout, hcloses, q, hsize, hentry⟩ := h.unit
  refine scoped_of_layout (c := ⟨u, o, Lowering.bodyEnv src env, src.isStrict, none, []⟩) rfl (hviews.bodyEnv hout)
    ?_ hsize hentry hcloses fun v hv o env src hl L hL => hl.scoped hL
  intro hbody
  rw [show u.storage = storageOf src.tree.body from congrArg CodeUnit.storage hout, storageOf, if_pos hbody]
termination_by sizeOf u
decreasing_by exact sizeOf_lt_of_mem_functions hv

theorem Lowering.lowerProgram_scoped {o : LoweringOptions} {kind : UnitKind} {scopeKind : ScopeKind} {strict : Bool}
    {p : Program} {u : CodeUnit} (hkind : kind ≠ .function) (hscope : scopeKind.storage .dynamic = .dynamic)
    (h : lowerProgram o kind scopeKind strict p = .ok u) : u.Scoped [] := by
  have hstorage := lowerProgram_storage hscope h
  obtain ⟨-, -, hcloses, q, hsize, hentry⟩ := lowerProgram_ok hkind hscope h
  refine scoped_of_layout (c := ⟨u, o, [], _, some 0, []⟩) rfl ?_ (fun _ => hstorage) hsize hentry hcloses
    fun v _ o env src hl L hL => hl.scoped hL
  rw [CodeUnit.links, hstorage]
  exact .nil rfl

/-- **The storage of variables covers the code.** Each instruction of a compiled unit and of the units nested
in it has its scope chain, the same whichever way control comes there. A unit that calls `eval` by its name or
opens the scope of an object looks up its variables by name, and no slot is addressed at or behind the variables
of such a unit or the object of a `with` statement. -/
theorem storage_covers {p : Program} {u : CodeUnit}
    (h : (∃ o, compile o p = .ok u) ∨ ∃ o strict, compileEval o strict p = .ok u) : u.Scoped [] := by
  rcases h with ⟨o, h⟩ | ⟨o, strict, h⟩
  · exact Lowering.lowerProgram_scoped (by decide) rfl h
  · exact Lowering.lowerProgram_scoped (by decide) rfl h

/-- A function with slots in a `with` statement in a handler, in a function without them. -/
theorem storage_covers_nested :
    let source := "function f(a) { try { a(); } catch (e) { with (a) return function (x) { x + e; }; } }"
    ∃ p u, Program.parse source = .ok p ∧ compile .standard p = .ok u ∧ u.Scoped [] ∧
      u.functions.toList.map (fun v => (v.storage, v.functions.toList.map CodeUnit.storage)) = [(.dynamic, [.static])] := by
  intro source
  have hunits : ((Program.parse source).toOption.bind fun p => (compile .standard p).toOption).map
      (fun u => u.functions.toList.map fun v => (v.storage, v.functions.toList.map CodeUnit.storage)) =
      some [(.dynamic, [.static])] := by decide +kernel
  obtain ⟨u, hu, hstorage⟩ := Option.map_eq_some_iff.1 hunits
  obtain ⟨p, hp, hc⟩ := Option.bind_eq_some_iff.1 hu
  exact ⟨p, u, eq_ok_of_toOption hp, eq_ok_of_toOption hc, storage_covers (.inl ⟨_, eq_ok_of_toOption hc⟩), hstorage⟩

end ScriptEngine
