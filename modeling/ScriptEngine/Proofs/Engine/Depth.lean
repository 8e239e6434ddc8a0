/-
Calls in progress. In every state that a script comes through, the realm counts
the frames of function and constructor calls, and there are never more of them
than the options allow; the frames of code given to `eval` do not count. A call
at the limit raises an error that handlers receive. Main statement:
`session_depth`.
-/
import ScriptEngine.Proofs.Engine.Frames
import ScriptEngine.Proofs.Engine.Report

namespace ScriptEngine

/-! ## Frames -/

/-- The frame runs a function that was called or applied by `new`. -/
def Frame.isCall (f : Frame) : Bool := f.purpose != .program

/-- The frames of a script: the outermost is its own, and inside it are those of calls and of code
given to `eval`. -/
inductive Nested : List Frame → Prop
  | none : Nested []
  | script {f} : f.purpose = .program → Nested [f]
  | call {f fs} : f.purpose ≠ .program → Nested fs → Nested (f :: fs)
  | eval {f fs} : f.purpose = .program → f.code.kind = .eval → Nested fs → Nested (f :: fs)

namespace Nested

theorem same {f g : Frame} {fs : List Frame} (h : Nested (f :: fs)) (hcode : g.code = f.code)
    (hpurpose : g.purpose = f.purpose) : Nested (g :: fs) := by
  cases h with
  | script h => exact .script (hpurpose.trans h)
  | call h hfs => exact .call (hpurpose ▸ h) hfs
  | eval h hkind hfs => exact .eval (hpurpose.trans h) (hcode ▸ hkind) hfs

theorem tail {f : Frame} {fs : List Frame} (h : Nested (f :: fs)) : Nested fs := by
  cases h with
  | script => exact .none
  | call _ h => exact h
  | eval _ _ h => exact h

theorem countP_le {fs : List Frame} (h : Nested fs) :
    (fs.countP fun f => f.code.kind != .eval) ≤ fs.countP Frame.isCall + 1 := by
  induction h with
  | none => exact Nat.zero_le _
  | script _ => exact Nat.le_trans List.countP_le_length (Nat.le_add_left 1 _)
  | @call f fs h _ ih =>
    have hcall : f.isCall = true := bne_iff_ne.2 h
    rw [List.countP_cons, List.countP_cons_of_pos hcall]
    split <;> omega
  | @eval f fs _ hkind _ ih =>
    rw [List.countP_cons, if_neg (by simp [hkind]), List.countP_cons]
    omega

end Nested

theorem Lowering.kind_lowerProgram {o : LoweringOptions} {kind : UnitKind} {scopeKind : ScopeKind} {strict : Bool}
    {p : Program} {u : CodeUnit} (h : lowerProgram o kind scopeKind strict p = .ok u) : u.kind = kind := by
  simp only [lowerProgram, bind, Except.bind] at h
  cases hu : lowerUnit (lowerFunction o (bodyNesting p.body 0)) (programHead o kind strict p
      (ScopeArena.empty.push none scopeKind .dynamic).1) p.body (ScopeArena.empty.push none scopeKind .dynamic).2 with
  | error e =>
    rw [programHead] at hu
    simp only [hu] at h
    cases h
  | ok r =>
    have hu' := hu
    rw [programHead] at hu'
    simp only [hu'] at h
    cases h
    obtain ⟨b, -, -, hout⟩ := lowerUnit_eq hu
    exact congrArg CodeUnit.kind hout

/-! ## Counting -/

/-- The realm counts the calls among the frames on top of those that were in progress before, and all are
within the limit. -/
structure Spends (base : Nat) (options : EngineOptions) (r : Realm) (fs : List Frame) : Prop where
  depth : r.depth = fs.countP Frame.isCall + base
  le : r.depth ≤ options.maxCallDepth
  options : r.options = options

namespace Spends

variable {base : Nat} {options : EngineOptions} {C : CodeUnit → Prop} {new : Bindings} {r r' : Realm} {f g : Frame}
  {fs : List Frame}

theorem goesOn (h : Spends base options r fs) (hr : r.GoesOn C new 0 r') : Spends base options r' fs :=
  ⟨hr.depth.trans h.depth, hr.depth ▸ h.le, hr.options.trans h.options⟩

theorem same (h : Spends base options r (f :: fs)) (hpurpose : g.purpose = f.purpose) :
    Spends base options r (g :: fs) :=
  ⟨h.depth.trans (by rw [List.countP_cons, List.countP_cons, Frame.isCall, Frame.isCall, hpurpose]), h.le, h.options⟩

theorem begins (h : Spends base options r fs) (hr : r.Enters C new g r') : Spends base options r' (g :: fs) := by
  cases hr with
  | @call code record scope receiver purpose _ _ hne hlt _ hgo _ =>
    have hcall : (Frame.start code (record :: scope) receiver purpose).isCall = true := bne_iff_ne.2 hne
    refine ⟨?_, ?_, hgo.options.trans h.options⟩
    · rw [List.countP_cons_of_pos hcall, hgo.depth, h.depth, Nat.add_right_comm]
    · rw [hgo.depth]
      exact h.options ▸ hlt
  | eval hcode hgo =>
    refine ⟨?_, hgo.depth ▸ h.le, hgo.options.trans h.options⟩
    rw [List.countP_cons_of_neg (by simp [Frame.isCall, Frame.start]), hgo.depth, h.depth, Nat.add_zero]

theorem ends (h : Spends base options r (f :: fs)) : Spends base options (r.endFrame f.purpose) fs := by
  have hdepth := h.depth
  rw [List.countP_cons] at hdepth
  cases hp : f.purpose with
  | program =>
    refine ⟨hdepth.trans ?_, h.le, h.options⟩
    rw [if_neg (by simp [Frame.isCall, hp]), Nat.add_zero]
  | call | construct =>
    rw [if_pos (by simp [Frame.isCall, hp]), Nat.add_right_comm] at hdepth
    exact ⟨Nat.sub_eq_of_eq_add hdepth, Nat.le_trans (Nat.sub_le _ _) h.le, h.options⟩

/-- **Every step keeps the count.** -/
theorem kept (base : Nat) (options : EngineOptions) : Kept (Spends base options) (Spends base options) where
  goesOn h hr _ hpurpose := (h.goesOn hr).same hpurpose
  ends h := h.ends
  begins h hr _ hpurpose := (h.same hpurpose).begins hr

end Spends

structure Counted (options : EngineOptions) (r : Realm) (fs : List Frame) : Prop where
  spends : Spends 0 options r fs
  nested : Nested fs

section

variable {limits : EngineOptions} {r : Realm} {fs : List Frame} (h : Counted limits r fs)
include h

theorem Counted.depth : r.depth = fs.countP Frame.isCall := h.spends.depth

theorem Counted.le : r.depth ≤ limits.maxCallDepth := h.spends.le

theorem Counted.options : r.options = limits := h.spends.options

end

theorem Counted.lasting (options : EngineOptions) : Lasting (Counted options) where
  goesOn h hr hcode hpurpose := ⟨(h.spends.goesOn hr).same hpurpose, h.nested.same hcode hpurpose⟩
  ends h := ⟨h.spends.ends, h.nested.tail⟩
  begins h hr hcode hpurpose := by
    have hnested := h.nested.same hcode hpurpose
    refine ⟨(h.spends.same hpurpose).begins hr, ?_⟩
    cases hr with
    | call _ hne => exact .call hne hnested
    | eval hcode => exact .eval rfl (Lowering.kind_lowerProgram hcode) hnested
  script h _ := ⟨⟨h.depth, h.le, h.options⟩, .script rfl⟩
  output h := ⟨⟨h.depth, h.le, h.options⟩, .none⟩

theorem Counted.start (options : EngineOptions) : Counted options (.start options) [] := ⟨⟨rfl, Nat.zero_le _, rfl⟩, .none⟩

theorem Session.counted {options : EngineOptions} {e : Engine} (h : Session options e) {source : String} {m : Machine}
    (hm : e.Passes source m) : Counted options m.realm m.frames :=
  (Counted.lasting options).passes ((Counted.lasting options).session (.start options) h) hm

/-! ## The limit -/

/-- The next instruction calls a function that a script made, or applies `new` to it. -/
inductive Machine.Applies (m : Machine) : Prop
  | call {op index receiver f code scope rest} (args : List Value) : op = .call ∨ op = .callEval →
      m.next? = some ⟨op, some (.call args.length index)⟩ →
      m.frame.stack = args.reverse ++ receiver :: .function f :: rest →
      m.realm.store.callable f = .closure code scope → Applies m
  | new {f code scope rest} (args : List Value) : m.next? = some ⟨.new, some (.count args.length)⟩ →
      m.frame.stack = args.reverse ++ .function f :: rest → m.realm.store.callable f = .closure code scope → Applies m

/-- What comes of beginning a call: below the limit a frame that counts, and at the limit an error. -/
def Realm.Admits (r : Realm) (x : Action Begun) : Prop :=
  if r.depth < r.options.maxCallDepth then ∃ f r', x r = .ok (.frame f) r' ∧ f.isCall = true ∧ r'.depth = r.depth + 1
  else ∃ r', x r = .error (.fault (.limit .callDepth)) r'

namespace Realm

variable {r : Realm}

theorem callClosure_eq (r : Realm) (code : CodeUnit) (scope : Chain) (receiver : Value) (args : List Value)
    (purpose : Purpose) : callClosure code scope receiver args purpose r =
      if r.depth < r.options.maxCallDepth then
        .ok (.start code ((callRecord code args r.store).1 :: scope) receiver purpose)
          { r with store := (callRecord code args r.store).2, depth := r.depth + 1 }
      else .error (.fault (.limit .callDepth)) r := by
  simp only [callClosure, Bind.bind, EStateM.bind, Action.get_apply]
  split
  case isTrue hd => rw [if_neg (Nat.not_lt.2 hd)]; rfl
  case isFalse hd => rw [if_pos (Nat.lt_of_not_le hd)]; rfl

variable {f : FunctionRef} {code : CodeUnit} {scope : Chain} (hf : r.store.callable f = .closure code scope)
include hf

theorem admits_call (receiver : Value) (args : List Value) (description : String) :
    r.Admits (call (.function f) receiver args description) := by
  simp only [Admits, call, Bind.bind, EStateM.bind, readStore, hf, callClosure_eq]
  split
  · exact ⟨_, _, rfl, rfl, rfl⟩
  · exact ⟨_, rfl⟩

theorem admits_construct (args : List Value) : r.Admits (construct (.function f) args) := by
  simp only [Admits, construct, Bind.bind, EStateM.bind, readStore, constructor?, hf, Callable.isConstructor, if_true,
    withStore, Store.addObject, callClosure_eq]
  split
  · exact ⟨_, _, rfl, rfl, rfl⟩
  · exact ⟨_, rfl⟩

end Realm

theorem Exec.pop2_ok {f : Frame} {a b : Value} {rest : List Value} (r : Realm) (hf : f.stack = b :: a :: rest) :
    pop2 ⟨r, f⟩ = .ok (a, b) ⟨r, { f with stack := rest }⟩ := by
  simp only [pop2, pop, takeOff, Frame.pop, hf, Bind.bind, EStateM.bind, List.head?_cons, List.tail_cons]
  rfl

namespace Machine.Applies

variable {m : Machine}

theorem exec (h : m.Applies) : ∃ i x rest, m.next? = some i ∧ m.realm.Admits x ∧
    (i.exec m.activity = (Exec.inRealm x >>= Exec.continueWith) ⟨m.realm, m.frame.past rest⟩ ∨
      ∃ op, i.exec m.activity = .error (.fault (.internal (.badOperand op))) ⟨m.realm, m.frame.past rest⟩) := by
  have hactivity : m.activity = ⟨m.realm, m.frame.past m.frame.stack⟩ := rfl
  cases h with
  | @call op index receiver f code scope rest args hop hi hstack hf =>
    have hpop : Exec.popMany args.length ⟨m.realm, m.frame.past m.frame.stack⟩ =
        .ok args ⟨m.realm, m.frame.past (receiver :: .function f :: rest)⟩ := popMany_ok _ (Frame.popMany_reverse hstack)
    have hpop2 : Exec.pop2 ⟨m.realm, m.frame.past (receiver :: .function f :: rest)⟩ =
        .ok (.function f, receiver) ⟨m.realm, m.frame.past rest⟩ := Exec.pop2_ok _ rfl
    have heval : (op == .callEval && Exec.isEval m.realm.store (.function f)) = false := by
      simp only [Exec.isEval, hf, Bool.and_false]
    have hop : Instruction.exec ⟨op, some (.call args.length index)⟩ = Exec.call op args.length index := by
      rcases hop with rfl | rfl <;> rfl
    have hexec : Exec.call op args.length index m.activity =
        (Exec.nameAt op index >>= fun name => Exec.inRealm (Realm.call (.function f) receiver args name) >>=
          Exec.continueWith) ⟨m.realm, m.frame.past rest⟩ := by
      rw [hactivity]
      simp only [Exec.call, bind, EStateM.bind, hpop, hpop2, Exec.readStore, heval]
      rfl
    rcases Exec.nameAt_eq op index ⟨m.realm, m.frame.past rest⟩ with ⟨name, hname⟩ | hname
    · refine ⟨_, _, rest, hi, Realm.admits_call hf receiver args name, .inl ?_⟩
      rw [hop, hexec]
      simp only [bind, EStateM.bind, hname]
    · refine ⟨_, _, rest, hi, Realm.admits_call hf receiver args "", .inr ⟨op, ?_⟩⟩
      rw [hop, hexec]
      simp only [bind, EStateM.bind, hname]
  | @new f code scope rest args hi hstack hf =>
    have hpop := popMany_ok m.realm (Frame.popMany_reverse (f := m.frame.past m.frame.stack) hstack)
    have hexec : Instruction.exec ⟨.new, some (.count args.length)⟩ = Exec.construct args.length := rfl
    refine ⟨_, _, rest, hi, Realm.admits_construct hf args, .inl ?_⟩
    simp only [hexec, hactivity, Exec.construct, bind, EStateM.bind, hpop, Exec.pop, Exec.takeOff, Frame.pop,
      List.head?_cons]
    rfl

theorem fails (h : m.Applies) (hd : m.realm.options.maxCallDepth ≤ m.realm.depth) :
    ∃ i e a, m.next? = some i ∧ i.exec m.activity = .error e a ∧ a.frame.code = m.frame.code ∧
      a.frame.handlers = m.frame.handlers ∧ (e.Visible → e = .fault (.limit .callDepth)) := by
  obtain ⟨i, x, rest, hi, hx, hexec⟩ := h.exec
  rw [Realm.Admits, if_neg (Nat.not_lt.2 hd)] at hx
  obtain ⟨r', hx⟩ := hx
  rcases hexec with hexec | ⟨op, hexec⟩
  · refine ⟨i, _, ⟨r', m.frame.past rest⟩, hi, ?_, rfl, rfl, fun _ => rfl⟩
    rw [hexec]
    simp only [bind, EStateM.bind, Exec.inRealm, hx]
  · exact ⟨i, _, _, hi, hexec, rfl, rfl, fun hv => (hv rfl).elim⟩

theorem begins (h : m.Applies) (hd : m.realm.depth < m.realm.options.maxCallDepth) (hv : ∀ e, m.Raises e → e.Visible) :
    ∃ m' f, m.step = .run m' ∧ m'.callers = f :: m.callers ∧ m'.frame.isCall = true ∧
      m'.realm.depth = m.realm.depth + 1 := by
  obtain ⟨i, x, rest, hi, hx, hexec⟩ := h.exec
  rw [Realm.Admits, if_pos hd] at hx
  obtain ⟨f, r', hx, hcall, hdepth⟩ := hx
  rcases hexec with hexec | ⟨op, hexec⟩
  · refine ⟨⟨r', f, m.frame.past rest :: m.callers⟩, _, ?_, rfl, hcall, hdepth⟩
    rw [Machine.step_eq hi, hexec]
    simp only [bind, EStateM.bind, Exec.inRealm, hx]
    rfl
  · exact absurd rfl (hv _ ⟨i, _, hi, hexec⟩)

end Machine.Applies

theorem Machine.unwind_to {e : Raised} (he : e.Visible) {pre post : List Frame} {g : Frame} {handler : Handler}
    {rest : List Handler} (hg : g.handlers = handler :: rest) :
    ∀ {f : Frame} {callers : List Frame} {r : Realm}, f :: callers = pre ++ g :: post → (∀ f ∈ pre, f.handlers = []) →
      ∃ (r' : Realm) (v : Value) (r'' : Realm), r'.exceptionValue e = (some v, r'') ∧
        unwind e r f callers = .run ⟨r'', handle g handler rest v, post⟩ := by
  induction pre with
  | nil =>
    intro f callers r hfs _
    cases hfs
    obtain ⟨v, r', hv, -⟩ := Realm.exceptionValue_visible he r
    exact ⟨r, v, r', hv, unwind_handled hg hv⟩
  | cons p pre ih =>
    intro f callers r hfs hpre
    obtain ⟨rfl, rfl⟩ := List.cons.inj hfs
    have hf := hpre f (.head _)
    cases pre with
    | nil =>
      obtain ⟨r', v, r'', hv, hu⟩ := ih (f := g) (r := r.endFrame f.purpose) (rfl : g :: post = [] ++ g :: post) nofun
      exact ⟨r', v, r'', hv, (unwind_cons hf).trans hu⟩
    | cons q pre =>
      obtain ⟨r', v, r'', hv, hu⟩ := ih (f := q) (r := r.endFrame f.purpose)
        (rfl : q :: (pre ++ g :: post) = q :: pre ++ g :: post) fun f hf => hpre f (.tail _ hf)
      exact ⟨r', v, r'', hv, (unwind_cons hf).trans hu⟩

theorem Realm.exceptionValue_limit {r r' : Realm} {v : Value}
    (h : r.exceptionValue (.fault (.limit .callDepth)) = (some v, r')) :
    ∃ o, v = .object o ∧ (r'.store.object o).get "name" = .string "RangeError" ∧
      (r'.store.object o).get "message" = .string "Maximum call stack size exceeded" := by
  simp only [exceptionValue, visibleKind?, Fault.kind] at h
  cases h
  obtain ⟨hname, hmessage⟩ := Object.get_error "RangeError" "Maximum call stack size exceeded"
  refine ⟨_, rfl, ?_, ?_⟩
  all_goals
    simp only [errorObject]
    split <;> rw [Store.object_addObject] <;> assumption

/-- **The calls in progress are bounded.** In every state that a script comes through, the realm counts
the frames of calls, and there are no more than the options allow; besides them and the script's own
there are only the frames of code given to `eval`. Another call at the limit raises a range error,
which the innermost handler receives. -/
theorem session_depth {options : EngineOptions} {e : Engine} (h : Session options e) {source : String} {m : Machine}
    (hm : e.Passes source m) :
    m.realm.depth = m.frames.countP Frame.isCall ∧ m.realm.depth ≤ options.maxCallDepth ∧
      (m.frames.countP fun f => f.code.kind != .eval) ≤ options.maxCallDepth + 1 ∧
      (m.Applies → m.realm.depth = options.maxCallDepth → m.Raises (.fault (.limit .callDepth)) ∧
        ∀ pre g post handler rest, m.frames = pre ++ g :: post → (∀ f ∈ pre, f.handlers = []) →
          g.handlers = handler :: rest → ∃ m' o, m.step = .run m' ∧ m'.callers = post ∧ m'.frame.code = g.code ∧
            m'.frame.position = handler.target ∧ m'.frame.scope = handler.scope ∧ m'.frame.handlers = rest ∧
            m'.frame.stack.head? = some (.object o) ∧ (m'.realm.store.object o).get "name" = .string "RangeError" ∧
            (m'.realm.store.object o).get "message" = .string "Maximum call stack size exceeded") := by
  have hc := h.counted hm
  refine ⟨hc.depth, hc.le, Nat.le_trans hc.nested.countP_le (Nat.succ_le_succ (hc.depth ▸ hc.le)), fun happlies hd => ?_⟩
  obtain ⟨i, err, a, hi, hx, hcode, hhandlers, herr⟩ := happlies.fails (hc.options ▸ hd ▸ Nat.le_refl _)
  have hvisible := (h.sound hm).visible err ⟨i, a, hi, hx⟩
  cases herr hvisible
  refine ⟨⟨i, a, hi, hx⟩, fun pre g post handler rest hfs hpre hg => ?_⟩
  rw [Machine.step_eq hi, hx]
  dsimp only
  -- The running frame has lost some operands by now, but none of its handlers.
  have hframes : ∃ pre' g', a.frame :: m.callers = pre' ++ g' :: post ∧ (∀ f ∈ pre', f.handlers = []) ∧
      g'.handlers = handler :: rest ∧ g'.code = g.code := by
    cases pre with
    | nil =>
      cases hfs
      exact ⟨[], a.frame, rfl, nofun, hhandlers.trans hg, hcode⟩
    | cons p pre =>
      obtain ⟨hp, hcallers⟩ := List.cons.inj hfs
      refine ⟨a.frame :: pre, g, by rw [hcallers]; rfl, fun f hf => ?_, hg, rfl⟩
      rcases List.mem_cons.1 hf with rfl | hf
      · exact hhandlers.trans (hp ▸ hpre p (.head _))
      · exact hpre f (.tail _ hf)
  obtain ⟨pre', g', hfs', hpre', hg', hcode'⟩ := hframes
  obtain ⟨r', v, r'', hv, hu⟩ := Machine.unwind_to hvisible hg' (r := a.realm) hfs' hpre'
  obtain ⟨o, rfl, hname, hmessage⟩ := Realm.exceptionValue_limit hv
  exact ⟨_, o, hu, rfl, hcode', rfl, rfl, rfl, rfl, hname, hmessage⟩

/-- A call without arguments would find a function of a program. -/
def Machine.offersClosure (m : Machine) : Bool :=
  match m.frame.stack with
  | _ :: .function f :: _ =>
    match m.realm.store.callable f with
    | .closure .. => true
    | .builtin _ => false
  | _ => false

theorem Machine.applies_of_offersClosure {m : Machine} (h : m.offersClosure = true) {description : Nat}
    (hnext : m.next? = some ⟨.call, some (.call 0 description)⟩) : m.Applies := by
  unfold offersClosure at h
  split at h
  case h_2 => cases h
  case h_1 receiver f rest hstack =>
    split at h
    case h_2 => cases h
    case h_1 code scope hf => exact .call [] (.inl rfl) hnext hstack hf

/-- With two calls and code given to `eval` in progress, the handler of the outer call receives
the error of a third. -/
theorem session_depth_caught :
    ∃ m m' o, Engine.Passes (.start ⟨.standard, 2⟩)
        "function f() \x7b try \x7b eval('g()'); \x7d catch (e) \x7b return e; \x7d \x7d function g() \x7b h(); \x7d function h() \x7b \x7d f();" m ∧
      m.Applies ∧ m.realm.depth = 2 ∧ m.step = .run m' ∧ m'.frames.length = 2 ∧ m'.frame.stack.head? = some (.object o) ∧
      (m'.realm.store.object o).get "name" = .string "RangeError" := by
  have hstate : ((Engine.stateAfter 18
      "function f() \x7b try \x7b eval('g()'); \x7d catch (e) \x7b return e; \x7d \x7d function g() \x7b h(); \x7d function h() \x7b \x7d f();"
      (.start ⟨.standard, 2⟩)).map fun m =>
        (m.offersClosure, m.next?, m.realm.depth, m.frames.map fun f => f.handlers.length)) =
      some (true, some ⟨.call, some (.call 0 0)⟩, 2, [0, 0] ++ [1, 0]) := by decide +kernel
  obtain ⟨m, hm, hstate⟩ := Option.map_eq_some_iff.1 hstate
  obtain ⟨hoffers, hnext, hdepth, hhandlers⟩ := by simpa only [Prod.mk.injEq] using hstate
  have happlies : m.Applies := m.applies_of_offersClosure hoffers hnext
  obtain ⟨pre, post, hfs, hpre, hpost⟩ := List.map_eq_append_iff.1 hhandlers
  obtain ⟨g, post, rfl, hg, hpost⟩ := List.map_eq_cons_iff.1 hpost
  obtain ⟨handler, rest, hg⟩ := List.exists_cons_of_length_pos (hg ▸ Nat.one_pos)
  have hpre : ∀ f ∈ pre, f.handlers = [] := by
    intro f hf
    have hmem : f.handlers.length ∈ [0, 0] := hpre ▸ List.mem_map_of_mem hf
    exact List.eq_nil_of_length_eq_zero (by simpa using hmem)
  obtain ⟨m', o, hstep, hcallers, -, -, -, -, htop, hname, -⟩ :=
    ((session_depth .start ⟨_, hm⟩).2.2.2 happlies hdepth).2 pre g post handler rest hfs hpre hg
  have hlength : m'.frames.length = 2 := by
    rw [Machine.frames, hcallers, List.length_cons, ← List.length_map fun f : Frame => f.handlers.length, hpost]
    rfl
  exact ⟨m, m', o, ⟨_, hm⟩, happlies, hdepth, hstep, hlength, htop, hname⟩

/-- Code given to `eval` runs in a frame of its own even when no call is allowed. -/
theorem session_depth_eval :
    ∃ m, Engine.Passes (.start ⟨.standard, 0⟩) "eval('1')" m ∧ 0 + 1 < m.frames.length := by
  have hstate : ((Engine.stateAfter 3 "eval('1')" (.start ⟨.standard, 0⟩)).map fun m => m.frames.length) = some 2 := by
    decide +kernel
  obtain ⟨m, hm, hlength⟩ := Option.map_eq_some_iff.1 hstate
  exact ⟨m, ⟨3, hm⟩, hlength ▸ Nat.lt_succ_self 1⟩

end ScriptEngine
