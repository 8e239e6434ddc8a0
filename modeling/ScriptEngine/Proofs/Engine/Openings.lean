/-
What is open at an instruction of compiled code, whichever way control came
there: how many exception regions and scopes, and how many operands are on the
stack. Main statements: `activation_openings`, and `activation_heights`, in which
the handlers that throw an exception again are an exception.
-/
import ScriptEngine.Proofs.Code.Nesting
import ScriptEngine.Proofs.Engine.Frames

namespace ScriptEngine

/-! ## Shapes of compiled code -/

theorem Shape.Flows.relax {X : Prop} {R : Nat → Shape → Prop} {p : Nat} {S : Shape} {i : Instruction}
    (h : S.Flows X R p i) : S.Flows False R p i := by
  refine ⟨h.1, ?_⟩
  have h := h.2
  revert h
  cases i.transfer with
  | opensRegion t => exact fun h => ⟨nofun, h.2⟩
  | _ => exact id

theorem Instruction.transfer_opensRegion {i : Instruction} {t : Nat} (h : i.transfer = .opensRegion t) :
    i = ⟨.enterTry, some (.target t)⟩ := by
  unfold transfer at h
  split at h <;> cases h
  rfl

theorem Compiled.shaped {u : CodeUnit} {body : List Stmt} (h : Compiled u body) :
    ∃ size shape, u.Shaped (bodyOneClause body = true) size shape ∧
      ∃ c functions t q, c.unit = u ∧ c.regions = [] ∧ ∀ K : Nat → Nat → Prop,
        (∀ p q, Spans (fun p S => p < size ∧ shape p = S) p q → K p q) →
        Layout.entryWith c functions (Layout.bodyNoting K body) ⟨0, t⟩ q := by
  obtain ⟨-, c, functions, t, q, rfl, hregions, hlayout⟩ := h.layout
  obtain ⟨shape, hshaped, -, hnotes⟩ := entry_shaped (Q := .heights _ (bodyOneClause body = true)) hregions trivial
    (fun hx => hx) (fun _ => trivial) hlayout
  exact ⟨q.pc, shape, hshaped, c, functions, t, q, rfl, hregions, hnotes⟩

/-- The position is the handler of a region that is opened above an operand. -/
def CodeUnit.Rethrows (u : CodeUnit) (height : Nat → Nat) (t : Nat) : Prop :=
  ∃ p, u.instructions[p]? = some ⟨.enterTry, some (.target t)⟩ ∧ height p ≠ 0

def Shape.heights (size : Nat) (shape : Nat → Shape) (p : Nat) : Nat := if p < size then (shape p).height else 0

namespace CodeUnit.Shaped

variable {X : Prop} {u : CodeUnit} {size : Nat} {shape : Nat → Shape}

theorem guided (h : u.Shaped X size shape) :
    u.Guided (u.Rethrows (Shape.heights size shape)) fun p S => p < size ∧ shape p = S := by
  rintro p _ ⟨hp, rfl⟩
  obtain ⟨i, hi, hf⟩ := h.flows p hp
  refine ⟨i, hi, hf.relax, fun t ht => ?_⟩
  by_cases h₀ : (shape p).height = 0
  · exact .inl h₀
  · refine .inr ⟨p, by rw [hi, Instruction.transfer_opensRegion ht], ?_⟩
    rwa [Shape.heights, if_pos hp]

theorem not_rethrows (h : u.Shaped X size shape) (hX : X) (t : Nat) : ¬ u.Rethrows (Shape.heights size shape) t := by
  rintro ⟨p, hi, hheight⟩
  rw [Shape.heights] at hheight
  split at hheight
  · obtain ⟨i, hi', hf⟩ := h.flows p ‹_›
    cases hi.symm.trans hi'
    exact hheight (hf.2.1 hX)
  · exact hheight rfl

theorem stands (h : u.Shaped X size shape) (realm : Realm) (base : Chain) (receiver : Value) (purpose : Purpose)
    (callers : List Frame) {Y : Prop} {W : Nat → Prop} :
    Machine.Stands Y W (fun p S => p < size ∧ shape p = S) base u callers []
      ⟨realm, .start u base receiver purpose, callers⟩ :=
  .running rfl rfl ⟨⟨h.pos, h.start⟩, rfl, rfl, rfl, trivial, Nat.le_refl _, fun _ => rfl⟩

theorem fits (h : u.Shaped X size shape) {base : Chain} {callers : List Frame} {m : Machine}
    (ha : u.Activation base callers m) : ∃ es, m.callers = callers ∧ m.frame.code = u ∧
      m.frame.Fits False (u.Rethrows (Shape.heights size shape)) (fun p S => p < size ∧ shape p = S) base
        m.frame.stack.length (shape m.frame.position) es := by
  obtain ⟨hd, realm, receiver, purpose, hleads⟩ := ha
  obtain ⟨es, hstands, -⟩ := (h.stands realm base receiver purpose callers (Y := False)).leads h.guided
    (P := fun _ => True) (fun _ _ _ => trivial) (fun _ _ => nofun) hleads
  obtain ⟨hcallers, hcode, S, hfits⟩ := hstands.runs hd
  refine ⟨es, hcallers, hcode, ?_⟩
  rw [hfits.shape.2]
  exact hfits.imp nofun

end CodeUnit.Shaped

/-! ## Regions and scopes -/

/-- When a frame of the unit comes from the instruction at `p` to the one at `q`, and was not in front
of `p` meanwhile, it has the same scope and handlers again. -/
def CodeUnit.Restores (u : CodeUnit) (p q : Nat) : Prop :=
  ∀ base callers m m', u.Activation base callers m → m.frame.position = p →
    Machine.Leads callers.length (fun m => m.callers = callers → p ≤ m.frame.position) m m' →
    m'.callers.length = callers.length → m'.frame.position = q →
    m'.frame.scope = m.frame.scope ∧ m'.frame.handlers = m.frame.handlers

theorem CodeUnit.Shaped.restores {X : Prop} {u : CodeUnit} {size : Nat} {shape : Nat → Shape} (h : u.Shaped X size shape)
    {p q : Nat} (hspans : Spans (fun p S => p < size ∧ shape p = S) p q) : u.Restores p q := by
  rintro base callers m m' ha rfl hleads hd rfl
  obtain ⟨C, ⟨-, hp⟩, ⟨-, hq⟩, hC⟩ := hspans
  obtain ⟨es, hcallers, hcode, hfits⟩ := h.fits ha
  obtain ⟨es', hstands, hshift⟩ := (Machine.Stands.running hcallers hcode hfits).leads h.guided
    (P := (m.frame.position ≤ ·)) (fun _ hq => hq) (fun _ _ => nofun) hleads
  obtain ⟨-, -, S, hfits'⟩ := hstands.runs hd
  have hes : es.map Entry.opened = C := hfits.opened.symm.trans (congrArg Shape.opened hp)
  have hes' : es'.map Entry.opened = C :=
    hfits'.opened.symm.trans ((congrArg Shape.opened hfits'.shape.2).symm.trans (congrArg Shape.opened hq))
  -- Everything that is open at the end was open before, since it was opened in front of `p`.
  have heq : es' = es := hshift.eq_of_opened (hes'.trans hes.symm) fun e he =>
    Nat.not_le.2 (hC _ (hes ▸ List.mem_map_of_mem he))
  subst heq
  exact ⟨hfits'.scope.trans hfits.scope.symm, hfits'.handlers.trans hfits.handlers.symm⟩

/-- **Each instruction has its number of open regions and scopes.** Whichever way control comes to it,
the frame has so many handlers, and its scope is so many scopes inside the one that it began in; and
behind every statement, wherever its code is written out, they are the ones from before it. This is
about all code that runs in a session. -/
theorem activation_openings {u : CodeUnit} {body : List Stmt} (h : Compiled u body) :
    ∃ regions scopes : Nat → Nat,
      (∀ base callers m, u.Activation base callers m → m.callers = callers ∧ m.frame.code = u ∧
        m.frame.handlers.length = regions m.frame.position ∧
        ∃ pushed, m.frame.scope = pushed ++ base ∧ pushed.length = scopes m.frame.position) ∧
      (∃ c functions t q, c.unit = u ∧ c.regions = [] ∧
        Layout.entryWith c functions (Layout.bodyNoting u.Restores body) ⟨0, t⟩ q) ∧
      ∀ options e source m, Session options e → e.Passes source m → m.frame.code = u →
        ∃ base, u.Activation base m.callers m := by
  obtain ⟨size, shape, hshaped, c, functions, t, q, hc, hregions, hnotes⟩ := h.shaped
  refine ⟨fun p => (shape p).regions, fun p => (shape p).scopes, fun base callers m ha => ?_,
    ⟨c, functions, t, q, hc, hregions, hnotes _ fun p q => hshaped.restores⟩, ?_⟩
  · obtain ⟨es, hcallers, hcode, hfits⟩ := hshaped.fits ha
    obtain ⟨pushed, hpushed, hlength⟩ := Entry.chain_eq base es
    refine ⟨hcallers, hcode, ?_, pushed, hfits.scope.trans hpushed, ?_⟩
    · rw [hfits.handlers, Entry.length_handlers, ← hfits.opened]
      rfl
    · rw [hlength, ← hfits.opened]
      rfl
  · rintro options e source m hs hm rfl
    exact (hs.activation hm).2

/-- A function in which an exception leaves a handler, a finalizer and a `with` statement. -/
theorem activation_openings_thrown :
    ∃ m, Engine.Passes (.start .standard)
        "function f(o) \x7b with (o) \x7b try \x7b throw 1; \x7d catch (e) \x7b throw e; \x7d finally \x7b x = e; \x7d \x7d \x7d f(\x7b x: 0 \x7d);" m ∧
      m.callers.length = 1 ∧ m.frame.handlers.length = 1 ∧ ∃ body, Compiled m.frame.code body ∧
        ∃ regions scopes : Nat → Nat, ∀ base callers m', m.frame.code.Activation base callers m' →
          m'.frame.handlers.length = regions m'.frame.position ∧
          ∃ pushed, m'.frame.scope = pushed ++ base ∧ pushed.length = scopes m'.frame.position := by
  have hstate : ((Engine.stateAfter 14
      "function f(o) \x7b with (o) \x7b try \x7b throw 1; \x7d catch (e) \x7b throw e; \x7d finally \x7b x = e; \x7d \x7d \x7d f(\x7b x: 0 \x7d);"
      (.start .standard)).map fun m => (m.callers.length, m.frame.handlers.length)) = some (1, 1) := by decide +kernel
  obtain ⟨m, hm, hstate⟩ := Option.map_eq_some_iff.1 hstate
  obtain ⟨hcallers, hhandlers⟩ := Prod.mk.inj hstate
  obtain ⟨⟨body, hbody⟩, -⟩ := Session.start.activation ⟨_, hm⟩
  obtain ⟨regions, scopes, hopen, -⟩ := activation_openings hbody
  exact ⟨m, ⟨_, hm⟩, hcallers, hhandlers, body, hbody, regions, scopes, fun base callers m' ha => (hopen base callers m' ha).2.2⟩

/-! ## Operands -/

theorem Machine.Leads.mono {d : Nat} {Q Q' : Machine → Prop} {m m' : Machine} (h : Leads d Q m m')
    (hQ : ∀ m, Q m → Q' m) : Leads d Q' m m' := by
  induction h with
  | refl => exact .refl
  | step _ hq hs hd ih => exact .step ih (hQ _ hq) hs hd

/-- If the frame of an activation runs at a handler that throws an exception again, it has the
operands that belong there. -/
def CodeUnit.Undisturbed (u : CodeUnit) (height : Nat → Nat) (callers : List Frame) (m : Machine) : Prop :=
  m.callers = callers → u.Rethrows height m.frame.position → m.frame.stack.length = height m.frame.position

theorem CodeUnit.Shaped.length_stack {X : Prop} {u : CodeUnit} {size : Nat} {shape : Nat → Shape}
    (h : u.Shaped X size shape) {base : Chain} {callers : List Frame} {realm : Realm} {receiver : Value} {purpose : Purpose}
    {m : Machine} (hleads : Machine.Leads callers.length (u.Undisturbed (Shape.heights size shape) callers)
      ⟨realm, .start u base receiver purpose, callers⟩ m) (hd : m.callers.length = callers.length)
    (hm : u.Undisturbed (Shape.heights size shape) callers m) :
    m.frame.stack.length = Shape.heights size shape m.frame.position := by
  have hsettled : ∀ m, u.Undisturbed (Shape.heights size shape) callers m →
      Machine.Settled (u.Rethrows (Shape.heights size shape)) (fun p S => p < size ∧ shape p = S) callers m := by
    rintro m hm hcallers hw S ⟨hp, rfl⟩
    rw [hm hcallers hw, Shape.heights, if_pos hp]
  obtain ⟨es, hstands, -⟩ := (h.stands realm base receiver purpose callers (Y := True)).leads h.guided
    (P := fun _ => True) (fun _ _ _ => trivial) (fun m hm _ => hsettled m hm) hleads
  obtain ⟨-, -, S, hfits⟩ := hstands.runs hd
  rw [Shape.heights, if_pos hfits.shape.1, hfits.shape.2]
  exact (hfits.exact ⟨trivial, hsettled m hm⟩).symm

/-- **Each instruction has its number of operands, but for handlers that throw an exception again.**
There are never fewer operands. There are more only once the frame has come to the handler of a region
that was opened above an operand with more than belong there; and no region is, unless a `try`
statement has both clauses. -/
theorem activation_heights {u : CodeUnit} {body : List Stmt} (h : Compiled u body) :
    ∃ height : Nat → Nat,
      (∀ base callers m, u.Activation base callers m → height m.frame.position ≤ m.frame.stack.length) ∧
      (∀ base callers realm receiver purpose m, Machine.Leads callers.length (u.Undisturbed height callers)
          ⟨realm, .start u base receiver purpose, callers⟩ m → m.callers.length = callers.length →
        u.Undisturbed height callers m → m.frame.stack.length = height m.frame.position) ∧
      (bodyOneClause body = true → ∀ base callers m, u.Activation base callers m →
        m.frame.stack.length = height m.frame.position) := by
  obtain ⟨size, shape, hshaped, -⟩ := h.shaped
  refine ⟨Shape.heights size shape, fun base callers m ha => ?_, fun base callers realm receiver purpose m hl hd hm =>
    hshaped.length_stack hl hd hm, fun hone base callers m ha => ?_⟩
  · obtain ⟨es, -, -, hfits⟩ := hshaped.fits ha
    rw [Shape.heights, if_pos hfits.shape.1]
    exact hfits.least
  · obtain ⟨hd, realm, receiver, purpose, hleads⟩ := ha
    have hcalm : ∀ m, u.Undisturbed (Shape.heights size shape) callers m :=
      fun m _ hw => (hshaped.not_rethrows hone _ hw).elim
    exact hshaped.length_stack (hleads.mono fun m _ => hcalm m) hd (hcalm m)

/-- An exception arrives from the middle of an expression in a handler; there is no finalizer. -/
theorem activation_heights_caught :
    ∃ u p, Program.parse "for (;;) \x7b try \x7b 1 + null.x; \x7d catch (e) \x7b 2 + null.x; \x7d \x7d" = .ok p ∧
      compile .standard p = .ok u ∧ ∃ height : Nat → Nat, ∀ base callers m, u.Activation base callers m →
        m.frame.stack.length = height m.frame.position := by
  have hok : (Program.parse "for (;;) \x7b try \x7b 1 + null.x; \x7d catch (e) \x7b 2 + null.x; \x7d \x7d").toOption.any
      (fun p => (compile .standard p).toOption.isSome && bodyOneClause p.body) = true := by decide +kernel
  obtain ⟨p, hp, hok⟩ := (Option.any_eq_true _ _).1 hok
  obtain ⟨hu, hone⟩ := Bool.and_eq_true_iff.1 hok
  obtain ⟨u, hu⟩ := Option.isSome_iff_exists.1 hu
  have hu := eq_ok_of_toOption hu
  obtain ⟨height, -, -, hexact⟩ := activation_heights (.script hu)
  exact ⟨u, p, eq_ok_of_toOption hp, hu, height, hexact hone⟩

/-- With both clauses the second of two rounds starts with an operand more than the first. -/
theorem activation_heights_rethrown :
    ¬ ∃ height : Nat → Nat, ∀ m, Engine.Passes (.start .standard)
        "for (var i = 0; i < 2; i++) \x7b try \x7b throw 1; \x7d catch (e) \x7b 5 + null.x; \x7d finally \x7b continue; \x7d \x7d" m →
      m.frame.stack.length = height m.frame.position := by
  rintro ⟨height, h⟩
  have hfirst : ((Engine.stateAfter 26
      "for (var i = 0; i < 2; i++) \x7b try \x7b throw 1; \x7d catch (e) \x7b 5 + null.x; \x7d finally \x7b continue; \x7d \x7d"
      (.start .standard)).map fun m => (m.frame.position, m.frame.stack.length)) = some (36, 1) := by decide +kernel
  have hsecond : ((Engine.stateAfter 50
      "for (var i = 0; i < 2; i++) \x7b try \x7b throw 1; \x7d catch (e) \x7b 5 + null.x; \x7d finally \x7b continue; \x7d \x7d"
      (.start .standard)).map fun m => (m.frame.position, m.frame.stack.length)) = some (36, 2) := by decide +kernel
  obtain ⟨m, hm, hstate⟩ := Option.map_eq_some_iff.1 hfirst
  obtain ⟨m', hm', hstate'⟩ := Option.map_eq_some_iff.1 hsecond
  obtain ⟨hposition, hlength⟩ := Prod.mk.inj hstate
  obtain ⟨hposition', hlength'⟩ := Prod.mk.inj hstate'
  have hone := h m ⟨_, hm⟩
  have htwo := h m' ⟨_, hm'⟩
  rw [hposition, hlength] at hone
  rw [hposition', hlength', ← hone] at htwo
  cases htwo

end ScriptEngine
