/-
The frames of a machine along a session. Whatever a step does, the running frame
goes on, or it ends, or another one begins; what these keep (`Lasting`) holds in
every state that a script comes through. Main statements: `Lasting.passes`, and
`Session.activation`, every frame runs compiled code from its start on.
-/
import ScriptEngine.Proofs.Engine.Session
import ScriptEngine.Proofs.Machine.Activation

namespace ScriptEngine

def Machine.frames (m : Machine) : List Frame := m.frame :: m.callers

/-! ## Steps -/

/-- The property of the realm and the frames stays when the running frame goes on or ends. Closures are
made of the functions `C` of the running code, and bindings among `new`. -/
structure Persists (C : CodeUnit → CodeUnit → Prop) (new : Bindings) (P : Realm → List Frame → Prop) : Prop where
  goesOn : ∀ {r r' : Realm} {f g : Frame} {fs : List Frame}, P r (f :: fs) → r.GoesOn (C f.code) new 0 r' →
    g.code = f.code → g.purpose = f.purpose → P r' (g :: fs)
  ends : ∀ {r : Realm} {f : Frame} {fs : List Frame}, P r (f :: fs) → P (r.endFrame f.purpose) fs

/-- The property `P` persists, and when another frame begins there is `Q`. -/
structure KeptBy (C : CodeUnit → CodeUnit → Prop) (new : Bindings) (P Q : Realm → List Frame → Prop) : Prop
    extends Persists C new P where
  begins : ∀ {r r' : Realm} {f f' g : Frame} {fs : List Frame}, P r (f :: fs) →
    r.Enters (C f.code) new g r' → f'.code = f.code → f'.purpose = f.purpose → Q r' (g :: f' :: fs)

/-- The properties stay whichever instruction comes next. -/
abbrev Kept (P Q : Realm → List Frame → Prop) : Prop :=
  KeptBy (fun u code => code ∈ u.functions) (fun _ _ d => d = true) P Q

/-- The instruction that comes next, if there is one, makes such closures and bindings only. -/
def Machine.MakesOnly (m : Machine) (C : CodeUnit → CodeUnit → Prop) (new : Bindings) : Prop :=
  ∀ i, m.next? = some i → (∀ code, i.Makes m.frame.code code → C m.frame.code code) ∧
    ∀ r name d, i.Binds m.frame.code r name d → new r name d

theorem Machine.makesOnly (m : Machine) : m.MakesOnly (fun u code => code ∈ u.functions) fun _ _ d => d = true := by
  refine fun i _ => ⟨?_, fun r name d h => h.1⟩
  rintro code ⟨k, -, hk⟩
  exact Array.mem_of_getElem? hk

def Machine.Enters (m : Machine) (C : CodeUnit → CodeUnit → Prop) (new : Bindings) (m' : Machine) : Prop :=
  ∃ f : Frame, m'.callers = f :: m.callers ∧ f.code = m.frame.code ∧ f.purpose = m.frame.purpose ∧
    m.realm.Enters (C m.frame.code) new m'.frame m'.realm

/-- The property of the realm and the frames after a step; at the end there are none. -/
def Step.Holds (P : Realm → List Frame → Prop) : Step → Prop
  | .run m => P m.realm m.frames
  | .done o => P o.realm []

theorem Realm.rests_exceptionValue (e : Raised) (r : Realm) : r.Rests (r.exceptionValue e).2 := by
  cases e with
  | thrown v => exact .refl r
  | fault f =>
    simp only [exceptionValue]
    cases visibleKind? f with
    | none => exact .refl r
    | some kind => exact .of_store rfl (Store.settled_addObject _ _)

namespace Persists

variable {C : CodeUnit → CodeUnit → Prop} {new : Bindings} {P : Realm → List Frame → Prop} {r r' : Realm} {f g : Frame}
  {callers : List Frame}

theorem rests (h : Persists C new P) (hp : P r (f :: callers)) (hr : r.Rests r') (hcode : g.code = f.code)
    (hpurpose : g.purpose = f.purpose) : P r' (g :: callers) :=
  h.goesOn hp (hr.mono (fun _ => False.elim) fun _ _ _ => False.elim) hcode hpurpose

theorem deliver (h : Persists C new P) (v : Value) (hp : P r (f :: callers)) :
    (Machine.deliver r f.purpose v callers).Holds P := by
  have hp := h.ends hp
  cases callers with
  | nil => exact hp
  | cons c callers => exact h.rests hp (.refl _) rfl rfl

theorem receive (h : Persists C new P) (e : Raised) (hp : P r (f :: callers)) :
    match Machine.receive e r f with
    | (some g, r') => P r' (g :: callers)
    | (none, r') => P r' callers := by
  have hr := r.rests_exceptionValue e
  unfold Machine.receive
  cases f.handlers with
  | nil => exact h.ends hp
  | cons handler rest =>
    dsimp only
    revert hr
    cases r.exceptionValue e with
    | mk v r' =>
      cases v with
      | some v => exact fun hr => h.rests hp hr rfl rfl
      | none => exact fun hr => h.ends (h.rests hp hr rfl rfl)

theorem unwind (h : Persists C new P) (e : Raised) (hp : P r (f :: callers)) : (Machine.unwind e r f callers).Holds P := by
  induction callers generalizing r f with
  | nil =>
    have hr := h.receive e hp
    unfold Machine.unwind
    revert hr
    cases Machine.receive e r f with
    | mk g r' => cases g <;> exact id
  | cons c callers ih =>
    have hr := h.receive e hp
    unfold Machine.unwind
    revert hr
    cases Machine.receive e r f with
    | mk g r' =>
      cases g with
      | some g => exact id
      | none => exact ih

/-- **What a step does to the realm and the frames.** -/
theorem step (h : Persists C new P) {m : Machine} (hm : m.MakesOnly C new) (hp : P m.realm m.frames) :
    m.step.Holds P ∨ ∃ m', m.step = .run m' ∧ m.Enters C new m' := by
  cases hi : m.next? with
  | none =>
    have hstep : m.step = Machine.deliver m.realm m.frame.purpose .undefined m.callers := by
      rw [Machine.next?] at hi
      rw [Machine.step]
      simp only [hi]
    rw [hstep]
    exact .inl (h.deliver _ hp)
  | some i =>
    have hx := i.acts_exec m.activity
    obtain ⟨hC, hnew⟩ := hm i hi
    rw [Machine.step_eq hi]
    cases hexec : i.exec m.activity with
    | error e a =>
      rw [hexec] at hx
      have hx : m.activity.Stays i.Makes i.Binds a := hx
      exact .inl (h.unwind e (h.goesOn hp (hx.realm.mono hC hnew) hx.code hx.purpose))
    | ok next a =>
      rw [hexec] at hx
      cases next with
      | proceed =>
        have hx : m.activity.Stays i.Makes i.Binds a := hx
        exact .inl (h.goesOn hp (hx.realm.mono hC hnew) hx.code hx.purpose)
      | leave v =>
        have hx : m.activity.Stays i.Makes i.Binds a := hx
        exact .inl (h.deliver v (h.goesOn hp (hx.realm.mono hC hnew) hx.code hx.purpose))
      | enter f => exact .inr ⟨_, rfl, a.frame, rfl, hx.1, hx.2.1, Realm.Enters.mono hx.2.2 hC hnew⟩

end Persists

namespace KeptBy

variable {P Q : Realm → List Frame → Prop}

theorem step {C : CodeUnit → CodeUnit → Prop} {new : Bindings} (h : KeptBy C new P Q) {m : Machine}
    (hm : m.MakesOnly C new) (hp : P m.realm m.frames) : m.step.Holds P ∨ m.step.Holds Q := by
  refine (h.toPersists.step hm hp).imp_right ?_
  rintro ⟨⟨r, g, callers⟩, hstep, f, hcallers, hcode, hpurpose, henters⟩
  cases hcallers
  rw [hstep]
  exact h.begins hp henters hcode hpurpose

theorem after (h : Kept P P) {s : Step} (hs : s.Holds P) (n : Nat) : (s.after n).Holds P := by
  induction n generalizing s with
  | zero => exact hs
  | succ n ih =>
    cases s with
    | done o => exact hs
    | run m => exact ih ((h.step m.makesOnly hs).elim id id)

end KeptBy

/-! ## Sessions -/

/-- A property of the realm and the frames that lasts while scripts run one after another. -/
structure Lasting (P : Realm → List Frame → Prop) : Prop extends Kept P P where
  script : ∀ {e : Engine} {source : String} {code : CodeUnit}, P e [] →
    compileSource e.options.lowering source = .ok code → (Step.run (.script code e)).Holds P
  output : ∀ {e : Engine}, P e [] → P e.takeOutput.2 []

namespace Lasting

variable {P : Realm → List Frame → Prop} {e : Engine} {source : String}

theorem eval (h : Lasting P) (hp : P e []) {fuel : Nat} {a : Answer} {e' : Engine}
    (he : e.eval fuel source = some (a, e')) : P e' [] := by
  rw [Engine.eval] at he
  cases hc : compileSource e.options.lowering source with
  | error f =>
    rw [hc] at he
    cases he
    exact hp
  | ok code =>
    rw [hc] at he
    simp only [Realm.runScript_eq, Option.map_eq_some_iff] at he
    obtain ⟨o, hrun, ha⟩ := he
    have hdone := h.after (h.script hp hc) fuel
    rw [Machine.run_eq_some.1 hrun] at hdone
    have hrealm : (Engine.answer o).2 = o.realm := by
      unfold Engine.answer
      cases o.result <;> rfl
    rw [ha] at hrealm
    rw [show e' = o.realm from hrealm]
    exact hdone

theorem session (h : Lasting P) {options : EngineOptions} (hp : P (.start options) []) (hs : Session options e) :
    P e [] := by
  induction hs with
  | start => exact hp
  | eval _ he ih => exact h.eval ih he
  | takeOutput _ ih => exact h.output ih

/-- **What lasts holds in every state that a script comes through.** -/
theorem passes (h : Lasting P) (hp : P e []) {m : Machine} (hm : e.Passes source m) : P m.realm m.frames := by
  obtain ⟨code, hc, n, hn⟩ := hm.script
  have hafter := h.after (h.script hp hc) n
  rw [hn] at hafter
  exact hafter

end Lasting

/-! ## Compiled code -/

/-- The unit is what lowering makes of a script, of code given to `eval` or of a function with these
statements. -/
inductive Compiled : CodeUnit → List Stmt → Prop
  | script {o p u} : compile o p = .ok u → Compiled u p.body
  | eval {o strict p u} : compileEval o strict p = .ok u → Compiled u p.body
  | function {o env src u} : Lowered o env src u → Compiled u src.tree.body

namespace Compiled

variable {u : CodeUnit} {body : List Stmt}

theorem layout (h : Compiled u body) : u.Closes ∧ ∃ c functions t q, c.unit = u ∧
    c.regions = [] ∧ Layout.entryAt c functions body ⟨0, t⟩ q := by
  cases h with
  | script h =>
    obtain ⟨-, -, hfunctions, q, -, hq⟩ := Lowering.lowerProgram_ok (by decide) rfl h
    exact ⟨hfunctions, _, _, _, q, rfl, rfl, hq⟩
  | eval h =>
    obtain ⟨-, -, hfunctions, q, -, hq⟩ := Lowering.lowerProgram_ok (by decide) rfl h
    exact ⟨hfunctions, _, _, _, q, rfl, rfl, hq⟩
  | function h =>
    obtain ⟨-, hfunctions, q, -, hq⟩ := h.unit
    exact ⟨hfunctions, _, _, _, q, rfl, rfl, hq⟩

theorem function_mem (h : Compiled u body) {v : CodeUnit} (hv : v ∈ u.functions) : ∃ body, Compiled v body := by
  obtain ⟨o, env, src, hsrc⟩ := h.layout.1.ofFunction hv
  exact ⟨_, .function hsrc⟩

end Compiled

structure AllCompiled (r : Realm) (fs : List Frame) : Prop where
  closures : ∀ code, r.HasClosure code → ∃ body, Compiled code body
  frames : ∀ f ∈ fs, ∃ body, Compiled f.code body

namespace AllCompiled

theorem goesOn {r r' : Realm} {f : Frame} {fs : List Frame} (h : AllCompiled r (f :: fs)) {n : Nat}
    {new : Bindings} (hr : r.GoesOn (· ∈ f.code.functions) new n r') : ∀ code, r'.HasClosure code → ∃ body, Compiled code body := by
  intro code hcode
  rcases hr.hasClosure hcode with hcode | hcode
  · exact h.closures code hcode
  · obtain ⟨body, hbody⟩ := h.frames f (.head _)
    exact hbody.function_mem hcode

theorem lasting : Lasting AllCompiled where
  goesOn h hr hcode _ := by
    refine ⟨h.goesOn hr, fun g hg => ?_⟩
    rcases List.mem_cons.1 hg with rfl | hg
    · exact hcode ▸ h.frames _ (.head _)
    · exact h.frames g (.tail _ hg)
  ends {r f fs} h := by
    refine ⟨fun code hcode => h.closures code ?_, fun g hg => h.frames g (.tail _ hg)⟩
    cases hp : f.purpose <;> rw [hp] at hcode <;> exact hcode
  begins {r r' f f' g fs} h hr hcode _ := by
    have hothers : ∀ g ∈ f' :: fs, ∃ body, Compiled g.code body := by
      intro g hg
      rcases List.mem_cons.1 hg with rfl | hg
      · exact hcode ▸ h.frames f (.head _)
      · exact h.frames g (.tail _ hg)
    cases hr with
    | call hfound _ _ _ hgo _ =>
      have hnew := hfound.elim (h.closures _) fun hmem => (h.frames f (.head _)).elim fun _ hb => hb.function_mem hmem
      exact ⟨h.goesOn hgo, List.forall_mem_cons.2 ⟨hnew, hothers⟩⟩
    | eval hnew hgo => exact ⟨h.goesOn hgo, List.forall_mem_cons.2 ⟨⟨_, .eval hnew⟩, hothers⟩⟩
  script {e source code} h hc := by
    refine ⟨fun code' hcode' => h.closures code' ?_, fun f hf => ?_⟩
    · obtain ⟨i, scope, hi⟩ := hcode'
      exact ⟨i, scope, (Store.keeps_declareAll _ _ _ _).callables ▸ hi⟩
    · cases List.mem_singleton.1 hf
      rw [compileSource] at hc
      cases hp : Program.parse source with
      | error f => rw [hp] at hc; cases hc
      | ok p =>
        rw [hp] at hc
        exact ⟨p.body, .script hc⟩
  output h := ⟨h.closures, nofun⟩

theorem start (options : EngineOptions) : AllCompiled (.start options) [] := by
  refine ⟨fun code hcode => ?_, nofun⟩
  obtain ⟨i, scope, hi⟩ := hcode
  exact (Realm.untouched_start options i code scope hi).elim

end AllCompiled

/-! ## Activations -/

/-- A frame of the unit was begun in a scope, above some callers, and it is the one that runs. -/
def CodeUnit.Activation (u : CodeUnit) (base : Chain) (callers : List Frame) (m : Machine) : Prop :=
  m.callers.length = callers.length ∧ ∃ realm receiver purpose,
    Machine.Leads callers.length (fun _ => True) ⟨realm, .start u base receiver purpose, callers⟩ m

namespace Machine

/-- Every frame was begun with its code, above the frames that are below it now. -/
def Begun (m : Machine) : Prop :=
  ∀ f callers, (f :: callers) <:+ m.frames → ∃ realm base receiver purpose,
    Leads callers.length (fun _ => True) ⟨realm, .start f.code base receiver purpose, callers⟩ m

theorem step_frames {m m' : Machine} (h : m.step = .run m') {f : Frame} {callers : List Frame}
    (hf : (f :: callers) <:+ m'.frames) : (∃ g, (g :: callers) <:+ m.frames ∧ g.code = f.code) ∨
      m'.frames = f :: callers ∧ ∃ base receiver purpose, f = .start f.code base receiver purpose := by
  let Old (fs : List Frame) (f : Frame) (callers : List Frame) : Prop :=
    (f :: callers) <:+ fs → ∃ g, (g :: callers) <:+ m.frames ∧ g.code = f.code
  have changed : ∀ {f f' : Frame} {fs : List Frame}, (∀ g cs, Old (f :: fs) g cs) → f'.code = f.code →
      ∀ g cs, Old (f' :: fs) g cs := by
    intro f f' fs hold hcode g cs hg
    rcases List.suffix_cons_iff.1 hg with heq | hg
    · obtain ⟨rfl, rfl⟩ := List.cons.inj heq
      obtain ⟨g', hg', hcode'⟩ := hold f cs (List.suffix_refl _)
      exact ⟨g', hg', hcode'.trans hcode.symm⟩
    · exact hold g cs (hg.trans (List.suffix_cons _ _))
  have hkept : Kept (fun _ fs => ∀ g cs, Old fs g cs) fun _ fs => ∀ g cs, (g :: cs) <:+ fs →
      (∃ g', (g' :: cs) <:+ m.frames ∧ g'.code = g.code) ∨
        fs = g :: cs ∧ ∃ base receiver purpose, g = .start g.code base receiver purpose := by
    refine ⟨⟨fun hold _ hcode _ => changed hold hcode, fun hold g cs hg => hold g cs (hg.trans (List.suffix_cons _ _))⟩, ?_⟩
    intro r r' f f' g fs hold hr hcode _ g' cs hg'
    rcases List.suffix_cons_iff.1 hg' with heq | hg'
    · obtain ⟨rfl, rfl⟩ := List.cons.inj heq
      refine .inr ⟨rfl, ?_⟩
      cases hr with
      | call => exact ⟨_, _, _, rfl⟩
      | eval => exact ⟨_, _, _, rfl⟩
    · exact .inl (changed hold hcode g' cs hg')
  have hstep := hkept.step m.makesOnly fun g cs hg => ⟨g, hg, rfl⟩
  rw [h] at hstep
  rcases hstep with hold | hnew
  · exact .inl (hold f callers hf)
  · exact hnew f callers hf

theorem Begun.step {m m' : Machine} (hm : m.Begun) (h : m.step = .run m') : m'.Begun := by
  intro f callers hf
  rcases step_frames h hf with ⟨g, hg, hcode⟩ | ⟨hframes, base, receiver, purpose, hstart⟩
  · obtain ⟨realm, base, receiver, purpose, hleads⟩ := hm g callers hg
    refine ⟨realm, base, receiver, purpose, .step (hcode ▸ hleads) trivial h ?_⟩
    exact Nat.le_of_succ_le_succ hf.length_le
  · obtain ⟨realm, frame, callers'⟩ := m'
    obtain ⟨rfl, rfl⟩ := List.cons.inj hframes
    exact ⟨realm, base, receiver, purpose, hstart ▸ .refl⟩

theorem Begun.after {m m' : Machine} (hm : m.Begun) {n : Nat} (h : (Step.run m).after n = .run m') : m'.Begun := by
  induction n generalizing m with
  | zero =>
    cases h
    exact hm
  | succ n ih =>
    rw [Step.after_run] at h
    cases hs : m.step with
    | done o => cases n <;> rw [hs] at h <;> cases h
    | run m₁ =>
      rw [hs] at h
      exact ih (hm.step hs) h

theorem begun_script (code : CodeUnit) (e : Engine) : (Machine.script code e).Begun := by
  intro f callers hf
  obtain ⟨rfl, rfl⟩ := List.cons.inj (hf.eq_of_length_le (Nat.succ_le_succ (Nat.zero_le _)))
  exact ⟨_, _, _, _, .refl⟩

end Machine

/-- **Whatever runs in a session is compiled code, in a frame that began with it.** -/
theorem Session.activation {options : EngineOptions} {e : Engine} (h : Session options e) {source : String} {m : Machine}
    (hm : e.Passes source m) :
    (∃ body, Compiled m.frame.code body) ∧ ∃ base, m.frame.code.Activation base m.callers m := by
  have hcompiled := AllCompiled.lasting.passes (AllCompiled.lasting.session (.start options) h) hm
  refine ⟨hcompiled.frames _ (.head _), ?_⟩
  obtain ⟨code, -, n, hn⟩ := hm.script
  obtain ⟨realm, base, receiver, purpose, hleads⟩ :=
    (Machine.begun_script code e).after hn m.frame m.callers (List.suffix_refl _)
  exact ⟨base, rfl, realm, receiver, purpose, hleads⟩

end ScriptEngine
