/-
Names that are bound nowhere, on an engine where assigning to them is a fault.
Whatever runs there is strict: scripts and code given to `eval` are lowered so,
and the functions of strict code are strict. So no assignment makes a global
variable. Main statement: `history_globals`.
-/
import ScriptEngine.Proofs.Engine.History

namespace ScriptEngine

/-! ## Strict code -/

/-- All code is strict, that of closures and that of frames, and what is lowered will be. -/
structure AllStrict (r : Realm) (fs : List Frame) : Prop where
  options : r.options.lowering.isStrict = true
  closures : ∀ code, r.HasClosure code → code.strict = true
  frames : ∀ f ∈ fs, f.code.strict = true

theorem Lowering.strict_lowerProgram {o : LoweringOptions} (ho : o.isStrict = true) {kind : UnitKind}
    {scopeKind : ScopeKind} {strict : Bool} {p : Program} {u : CodeUnit} (hkind : kind ≠ .function)
    (hscope : scopeKind.storage .dynamic = .dynamic) (h : lowerProgram o kind scopeKind strict p = .ok u) :
    u.strict = true := by
  obtain ⟨-, hstrict, -⟩ := lowerProgram_ok hkind hscope h
  rw [hstrict, Meaning.programBody, ho, Bool.or_true, Bool.true_or]

namespace AllStrict

theorem goesOn {r r' : Realm} {f : Frame} {fs : List Frame} (h : AllStrict r (f :: fs)) {n : Nat} {new : Bindings}
    (hr : r.GoesOn (fun code => f.code.strict = true → code.strict = true) new n r') :
    r'.options.lowering.isStrict = true ∧ ∀ code, r'.HasClosure code → code.strict = true :=
  ⟨hr.options ▸ h.options, fun code hcode => (hr.hasClosure hcode).elim (h.closures code) fun hmade =>
    hmade (h.frames f (.head _))⟩

theorem kept {new : Bindings} : KeptBy (fun u code => u.strict = true → code.strict = true) new AllStrict AllStrict where
  goesOn h hr hcode _ := by
    obtain ⟨hoptions, hclosures⟩ := h.goesOn hr
    refine ⟨hoptions, hclosures, fun g hg => ?_⟩
    rcases List.mem_cons.1 hg with rfl | hg
    · exact hcode ▸ h.frames _ (.head _)
    · exact h.frames g (.tail _ hg)
  ends {r f fs} h := by
    refine ⟨?_, fun code hcode => h.closures code ?_, fun g hg => h.frames g (.tail _ hg)⟩
    · cases f.purpose <;> exact h.options
    · cases hp : f.purpose <;> rw [hp] at hcode <;> exact hcode
  begins {r r' f f' g fs} h hr hcode _ := by
    have hothers : ∀ g ∈ f' :: fs, g.code.strict = true := by
      intro g hg
      rcases List.mem_cons.1 hg with rfl | hg
      · exact hcode ▸ h.frames f (.head _)
      · exact h.frames g (.tail _ hg)
    cases hr with
    | call hfound _ _ _ hgo _ =>
      obtain ⟨hoptions, hclosures⟩ := h.goesOn hgo
      have hnew := hfound.elim (h.closures _) fun hmade => hmade (h.frames f (.head _))
      exact ⟨hoptions, hclosures, List.forall_mem_cons.2 ⟨hnew, hothers⟩⟩
    | eval hnew hgo =>
      obtain ⟨hoptions, hclosures⟩ := h.goesOn hgo
      have hnew := Lowering.strict_lowerProgram h.options (by decide) rfl hnew
      exact ⟨hoptions, hclosures, List.forall_mem_cons.2 ⟨hnew, hothers⟩⟩

end AllStrict

def Config.frames : Config → List Frame
  | idle _ => []
  | running m => m.frames

theorem History.allStrict {options : EngineOptions} (ho : options.lowering.isStrict = true) {c : Config}
    {past : List Config} (h : History options c past) : AllStrict c.realm c.frames := by
  induction h with
  | start =>
    refine ⟨ho, fun code hcode => ?_, nofun⟩
    obtain ⟨i, scope, hi⟩ := hcode
    exact (Realm.untouched_start options i code scope hi).elim
  | @next c c' past h hnext ih =>
    -- The functions of strict code are strict, which is part of what a sound state is.
    have hmakes : ∀ m, c = .running m →
        m.MakesOnly (fun u code => u.strict = true → code.strict = true) fun _ _ d => d = true := by
      rintro m rfl i hi
      refine ⟨?_, (m.makesOnly i hi).2⟩
      rintro code ⟨k, rfl, hk⟩ hstrict
      exact h.sound.agrees.closures k code hi hk hstrict
    cases hnext with
    | @script e source code hc =>
      refine ⟨ih.options, fun code' hcode' => ih.closures code' ?_, fun f hf => ?_⟩
      · obtain ⟨i, scope, hi⟩ := hcode'
        exact ⟨i, scope, (Store.keeps_declareAll _ _ _ _).callables ▸ hi⟩
      · cases List.mem_singleton.1 hf
        obtain ⟨p, -, hp⟩ := compileSource_eq_ok hc
        exact Lowering.strict_lowerProgram ih.options (by decide) rfl hp
    | step hstep =>
      have hholds := (AllStrict.kept.step (hmakes _ rfl) ih).elim id id
      rw [hstep] at hholds
      exact hholds
    | ends hstep =>
      have hholds := (AllStrict.kept.step (hmakes _ rfl) ih).elim id id
      rw [hstep] at hholds
      exact hholds
    | output => exact ⟨ih.options, ih.closures, nofun⟩

/-! ## Unbound names -/

theorem Store.lookup_of_find_none {s : Store} {chain : Chain} {name : String} (h : s.find name chain = none) :
    s.lookup chain name = none := by
  simp only [lookup, h]

theorem Store.assign_of_find_none {s : Store} {chain : Chain} {name : String} (h : s.find name chain = none) (v : Value) :
    s.assign chain name v = (false, s) := by
  simp only [assign, h]

namespace Machine

/-- The next instruction reads a variable that has to be there. -/
def Reads (m : Machine) (name : String) : Prop :=
  m.named? = some (.loadName, name) ∨ m.named? = some (.loadNameWithThis, name) ∨ m.noted? = some (.loadSlot, name)

def Assigns (m : Machine) (name : String) : Prop :=
  m.named? = some (.storeName, name) ∨ m.named? = some (.storeNameStrict, name) ∨ m.noted? = some (.storeSlot, name)

variable {m : Machine} {name : String}

theorem Sound.found_of_noted (h : m.Sound) {op : Opcode} (hop : op = .loadSlot ∨ op = .storeSlot)
    (hn : m.noted? = some (op, name)) : m.realm.store.find name m.frame.scope ≠ none := by
  obtain ⟨⟨operand, hi⟩, hname⟩ := noted?_eq_some hn
  -- Without a slot the instruction would raise an internal fault.
  cases operand with
  | none => rcases hop with rfl | rfl <;> exact (h.visible _ ⟨_, _, hi, rfl⟩ rfl).elim
  | some operand =>
    cases operand with
    | slot depth index =>
      obtain ⟨name', r, hname', hs⟩ := h.slots op depth index hop hi
      cases hname.symm.trans hname'
      obtain ⟨rest, hfind⟩ := hs.find
      rw [hfind]
      exact nofun
    | _ => rcases hop with rfl | rfl <;> exact (h.visible _ ⟨_, _, hi, rfl⟩ rfl).elim

theorem fails_of_reads (hs : m.Sound) (hr : m.Reads name) (hf : m.realm.store.find name m.frame.scope = none) :
    m.Fails (.unbound name) := by
  have hlookup : m.activity.realm.store.lookup m.activity.frame.scope name = none := Store.lookup_of_find_none hf
  rcases hr with hn | hn | hn
  · obtain ⟨k, hi, hk⟩ := named?_eq_some.1 hn
    refine ⟨_, m.activity, hi, ?_, rfl⟩
    have hk : m.activity.frame.code.constants[k]? = some (.string name) := hk
    simp only [Instruction.exec, Exec.nameOperand, Exec.nameAt, Bind.bind, EStateM.bind, Exec.readFrame, hk,
      pure, EStateM.pure, Exec.loadName, Exec.lookup, Exec.readStore, hlookup]
    rfl
  · obtain ⟨k, hi, hk⟩ := named?_eq_some.1 hn
    refine ⟨_, m.activity, hi, ?_, rfl⟩
    have hk : m.activity.frame.code.constants[k]? = some (.string name) := hk
    simp only [Instruction.exec, Exec.nameOperand, Exec.nameAt, Bind.bind, EStateM.bind, Exec.readFrame, hk,
      pure, EStateM.pure, Exec.loadNameWithReceiver, Exec.lookup, Exec.readStore, hlookup]
    rfl
  · exact (hs.found_of_noted (.inl rfl) hn hf).elim

theorem fails_of_assigns (hs : m.Sound) (hstrict : m.frame.code.strict = true) (ha : m.Assigns name)
    (hf : m.realm.store.find name m.frame.scope = none) : m.Fails (.unbound name) := by
  rcases ha with hn | hn | hn
  · obtain ⟨k, hi, -⟩ := named?_eq_some.1 hn
    cases hstrict.symm.trans (hs.agrees.stores _ hi)
  · obtain ⟨k, hi, hk⟩ := named?_eq_some.1 hn
    have hk : m.activity.frame.code.constants[k]? = some (.string name) := hk
    have hassign : ∀ v, m.realm.store.assign m.frame.scope name v = (false, m.realm.store) := Store.assign_of_find_none hf
    have hexec : (⟨.storeNameStrict, some (.property k)⟩ : Instruction).exec m.activity =
        Exec.storeName name true m.activity := by
      simp only [Instruction.exec, Exec.nameOperand, Exec.nameAt, Bind.bind, EStateM.bind, Exec.readFrame, hk,
        pure, EStateM.pure]
    cases hstack : m.frame.stack with
    | nil =>
      refine (hs.visible (.fault (.internal .stackUnderflow)) ⟨_, m.activity, hi, ?_⟩ rfl).elim
      rw [hexec]
      simp only [Exec.storeName, Bind.bind, EStateM.bind, Exec.peek, Exec.takeOff, activity, hstack, List.head?_nil]
    | cons v rest =>
      refine ⟨_, m.activity, hi, ?_, rfl⟩
      rw [hexec]
      simp only [Exec.storeName, Bind.bind, EStateM.bind, Exec.peek, Exec.takeOff, activity, hstack, List.head?_cons,
        Exec.readFrame, Exec.withStore, Exec.inRealm, Realm.withStore, hassign]
      rfl
  · exact (hs.found_of_noted (.inr rfl) hn hf).elim

end Machine

/-- **On a strict engine no assignment makes a global variable.** Whatever scripts have run, each name
that the global record binds is a built-in one, or a script or code given to `eval` that has run
declares it. And when a variable is to be assigned to, or to be read before that, and its name is bound
nowhere along the chain, then the instruction raises a reference error, and every record stays as it is. -/
theorem history_globals {options : EngineOptions} (ho : options.lowering.undeclaredAssignment = .throwError)
    {c : Config} {past : List Config} (h : History options c past) :
    (∀ name, c.realm.store.binds c.realm.global name = true → name ∈ builtinGlobals.map Prod.fst ∨
      ∃ m, .running m ∈ c :: past ∧ m.frame.code.kind ≠ .function ∧ name ∈ m.frame.code.bindings) ∧
    ∀ m name, c = .running m → m.Reads name ∨ m.Assigns name → m.realm.store.find name m.frame.scope = none →
      m.Fails (.unbound name) := by
  have ho : options.lowering.isStrict = true := by rw [LoweringOptions.isStrict, ho]; rfl
  refine ⟨fun name hb => ?_, ?_⟩
  · obtain ⟨hglobal, hgrowing, horigin⟩ := h.origin
    obtain ⟨d, hb⟩ := hgrowing.hasBinding hb
    cases horigin _ name d hb with
    | builtin _ hname => exact .inl hname
    | script hm hkind _ hname => exact .inr ⟨_, hm, by rw [hkind]; exact nofun, hname⟩
    | eval hm hkind hname => exact .inr ⟨_, hm, by rw [hkind]; exact nofun, hname⟩
    | call hm hcall _ =>
      -- The record of a call is never the global one, which was there before.
      obtain ⟨hglobal', hgrowing', -⟩ := (h.of_suffix ((List.suffix_cons _ _).trans hm)).origin
      rw [hglobal', ← hglobal] at hgrowing'
      exact (hcall.fixes.1 hgrowing').elim
    | assigned hm hname =>
      obtain ⟨past', h'⟩ := h.of_mem hm
      obtain ⟨k, hi, -⟩ := Machine.named?_eq_some.1 hname
      cases ((h'.allStrict ho).frames _ (.head _)).symm.trans (h'.sound.agrees.stores _ hi)
  · rintro m name rfl (hr | ha) hf
    · exact m.fails_of_reads h.sound hr hf
    · exact m.fails_of_assigns h.sound ((h.allStrict ho).frames _ (.head _)) ha hf

/-- The code given to `eval` declares one variable, and a function assigns to another one. -/
theorem history_globals_function : ∃ m past, History ⟨⟨true, .throwError, true⟩, 256⟩ (.running m) past ∧
    (∃ m', .running m' ∈ .running m :: past ∧ m'.frame.code.kind ≠ .function ∧ "b" ∈ m'.frame.code.bindings) ∧
    m.Fails (.unbound "c") := by
  have hstate : (Engine.stateAfter 18 "var a = eval('var b = 1; b'); function f() \x7b c = a; \x7d f();"
      (.start ⟨⟨true, .throwError, true⟩, 256⟩)).any (fun m => m.named? == some (.storeNameStrict, "c") &&
        m.realm.store.binds m.realm.global "b" && (m.realm.store.find "c" m.frame.scope).isNone) = true := by
    decide +kernel
  obtain ⟨m, hm, hstate⟩ := (Option.any_eq_true _ _).1 hstate
  simp only [Bool.and_eq_true, beq_iff_eq, Option.isNone_iff_eq_none] at hstate
  obtain ⟨⟨hnamed, hb⟩, hc⟩ := hstate
  obtain ⟨past, h, -⟩ := History.start.passes ⟨18, hm⟩
  obtain ⟨hdeclared, hfails⟩ := history_globals rfl h
  exact ⟨m, past, h, (hdeclared "b" hb).resolve_left (by decide), hfails m "c" rfl (.inr (.inr (.inl hnamed))) hc⟩

end ScriptEngine
