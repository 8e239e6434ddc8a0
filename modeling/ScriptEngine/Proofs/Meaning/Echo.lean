/-
Programs in envelopes, as trees. What a program in an envelope comes to is an
echo of what the program itself comes to: the same value in the same world, or
an exception that is reported in the same way, in a world with the object that
handlers see of it and with the record of a handler. Main statement:
`echoes_runScript`.
-/
import ScriptEngine.Proofs.Engine.Report
import ScriptEngine.Proofs.Lowering.Envelope
import ScriptEngine.Proofs.Meaning.Program

namespace ScriptEngine.Meaning

def World.extended (W : World) (objects : Array Object) (records : Array Record) : World :=
  { W with realm := { W.realm with store := W.realm.store.extended objects records } }

inductive Echoes : Option (Except Raised α × World) → Option (Except Raised α × World) → Prop
  | nothing : Echoes none none
  | value (a : α) (W : World) : Echoes (some (.ok a, W)) (some (.ok a, W))
  | raised {e e' : Raised} {W : World} {objects : Array Object} {records : Array Record} :
      Failure.ofRaised (W.realm.store.extended objects records) e' = Failure.ofRaised W.realm.store e →
      Echoes (some (.error e, W)) (some (.error e', W.extended objects records))

namespace Echoes

theorem refl : ∀ r : Option (Except Raised α × World), Echoes r r
  | none => .nothing
  | some (.ok a, W) => .value a W
  | some (.error e, W) => by
    have h : Echoes (some (.error e, W)) (some (.error e, W.extended #[] #[])) :=
      raised (α := α) (by rw [Store.extended_empty])
    rwa [World.extended, Store.extended_empty] at h

theorem bind {x y : Eval α} {W : World} (h : Echoes (x W) (y W)) (k : α → Eval β) :
    Echoes ((x >>= k) W) ((y >>= k) W) := by
  rw [bind_apply, bind_apply]
  generalize x W = r at h
  generalize y W = r' at h
  cases h with
  | nothing => exact .nothing
  | value a W => exact .refl _
  | raised h => exact .raised h

theorem behind (x : Eval α) {f g : α → Eval β} (h : ∀ a W, Echoes (f a W) (g a W)) (W : World) :
    Echoes ((x >>= f) W) ((x >>= g) W) := by
  rw [bind_apply, bind_apply]
  cases x W with
  | none => exact .nothing
  | some p =>
    obtain ⟨r, W'⟩ := p
    cases r with
    | ok a => exact h a W'
    | error e => exact .refl _

theorem withoutValue {x y : Eval α} (h : ∀ W, Echoes (x W) (y W)) (W : World) :
    Echoes (Meaning.withoutValue x W) (Meaning.withoutValue y W) := by
  have h := h { W with value := .undefined }
  unfold Meaning.withoutValue
  generalize x { W with value := .undefined } = r at h
  generalize y { W with value := .undefined } = r' at h
  cases h with
  | nothing => exact .nothing
  | value a W' => exact .value a _
  | raised h => exact .raised h

theorem answer {r r' : Option (Except Raised Value × World)} (h : Echoes r r') :
    r = none ∧ r' = none ∨ ∃ result result' W objects records, r = some (result, W) ∧
      r' = some (result', W.extended objects records) ∧ (W.extended objects records).answer result' = W.answer result := by
  cases h with
  | nothing => exact .inl ⟨rfl, rfl⟩
  | value v W =>
    refine .inr ⟨.ok v, .ok v, W, #[], #[], rfl, ?_, rfl⟩
    rw [World.extended, Store.extended_empty]
  | raised h => exact .inr ⟨_, _, _, _, _, rfl, rfl, congrArg Except.error h⟩

end Echoes

/-! ## Handlers and finalizers -/

variable {h : Host} {act : Activation} {W : World}

theorem finalize_nil (c : Completion) : finalize (evalBody h []) act c W = complete c W := by
  unfold finalize andThen
  rw [bind_apply]
  rfl

theorem lookup_catch (s : Store) (chain : Chain) (name : String) (v : Value) :
    (s.addRecord (.declarative #[name] #[v])).2.lookup ((s.addRecord (.declarative #[name] #[v])).1 :: chain) name =
      some (v, .undefined) := by
  have hr := s.record_addRecord (.declarative #[name] #[v])
  have hplace : (s.addRecord (.declarative #[name] #[v])).2.place? (s.addRecord (.declarative #[name] #[v])).1 name =
      some (.slot 0) := by
    simp [Store.place?, hr]
  have hfind : (s.addRecord (.declarative #[name] #[v])).2.find name
      ((s.addRecord (.declarative #[name] #[v])).1 :: chain) = some ((s.addRecord (.declarative #[name] #[v])).1 :: chain) := by
    rw [Store.find, Store.binds, hplace]
    rfl
  simp only [Store.lookup, hfind, Store.valueOf?, hplace, Store.slot?, hr, Store.receiver]
  rfl

theorem handle_rethrow (param : Identifier) (v : Value) :
    handle (evalHandler h (Envelope.rethrow param).catches) act (.error (.thrown v)) W =
      some (.error (.thrown v), W.extended #[] #[.declarative #[param.name] #[v]]) := by
  let record : Record := .declarative #[param.name] #[v]
  let r := (W.realm.store.addRecord record).1
  have hstore : W.realm.store.extended #[] #[record] = (W.realm.store.addRecord record).2 := by
    rw [← Store.extended_addRecord, Store.extended_empty]
  have hscope : perform (Realm.withStore fun s => s.addRecord record) W = some (.ok r, W.extended #[] #[record]) := by
    rw [World.extended, hstore]
    rfl
  have hread : evalExpr h { act with chain := r :: act.chain } (.identifier param) (W.extended #[] #[record]) =
      some (.ok v, W.extended #[] #[record]) := by
    have hlookup := lookup_catch W.realm.store act.chain param.name v
    rw [← hstore] at hlookup
    have hvariable : readVariable (r :: act.chain) param.name (W.extended #[] #[record]).realm.store =
        .ok (v, .undefined) := by
      simp only [readVariable, World.extended]
      rw [show (W.realm.store.extended #[] #[record]).lookup (r :: act.chain) param.name = _ from hlookup]
    have hperform : perform (inspect (readVariable (r :: act.chain) param.name)) (W.extended #[] #[record]) =
        some (.ok (v, .undefined), W.extended #[] #[record]) := by
      simp only [perform, inspect, hvariable]
    rw [evalExpr, readName, map_eq_pure_bind, bind_apply, hperform]
    rfl
  have hthrow : evalBody h [⟨[], .nowhere, .throws (.identifier param)⟩] { act with chain := r :: act.chain }
      (W.extended #[] #[record]) = some (.error (.thrown v), W.extended #[] #[record]) := by
    simp only [evalBody, andThen, evalStmt, breakable, evalKind, evalThrow]
    simp only [bind_apply, hread]
    rfl
  simp only [Envelope.catches, evalHandler, handle, inScope]
  rw [bind_apply, hscope]
  exact hthrow

theorem echoes_completionOf (x : Eval Exit) {k : Completion → Eval Exit}
    (hok : ∀ exit W, k (.ok exit) W = some (.ok exit, W))
    (herror : ∀ v W, ∃ records, k (.error (.thrown v)) W = some (.error (.thrown v), W.extended #[] records)) :
    Echoes (x W) ((completionOf x >>= k) W) := by
  rw [bind_apply]
  cases hx : x W with
  | none =>
    rw [completionOf, hx]
    exact .nothing
  | some p =>
    obtain ⟨result, W'⟩ := p
    cases result with
    | ok exit =>
      rw [completionOf, hx]
      simp only [hok]
      exact .value exit W'
    | error e =>
      rw [completionOf, hx]
      cases hv : W'.realm.exceptionValue e with
      | mk v r =>
        cases v with
        | none =>
          cases Realm.exceptionValue_none hv
          simp only [hv]
          exact .refl _
        | some v =>
          obtain ⟨objects, hr, hreport⟩ := Realm.report_exceptionValue hv
          simp only [hv]
          obtain ⟨records, hk⟩ := herror v { W' with realm := r }
          rw [hk, hr]
          have hextended : World.extended { W' with realm := { W'.realm with store := W'.realm.store.extended objects #[] } }
              #[] records = W'.extended objects records := by
            simp only [World.extended, Store.extended_extended]
          rw [hextended]
          exact .raised (hreport records)

/-- **A block in an envelope comes to an echo of what the block comes to.** -/
theorem echoes_attempt (w : Envelope) (block : Act) :
    Echoes (block act W) (evalAttempt block (evalHandler h w.catches) (evalFinalizer h w.finalizes) act W) := by
  cases w with
  | finalizer =>
    refine echoes_completionOf (block act) (fun exit W => ?_) fun v W => ⟨#[], ?_⟩
    · rw [finalize_nil]
      rfl
    · rw [finalize_nil, World.extended, Store.extended_empty]
      rfl
  | rethrow param =>
    refine echoes_completionOf (block act) (fun exit W => rfl) fun v W => ⟨#[.declarative #[param.name] #[v]], ?_⟩
    exact handle_rethrow param v

theorem breakable_nil (x : Eval Exit) : breakable [] .labelled x = x := by
  have hexit : ∀ exit : Exit, exit.refersTo .breaks [] .labelled = false := by
    intro exit
    cases exit with
    | jumps jump label => cases label <;> simp [Exit.refersTo, Lowering.JumpKind.refersTo]
    | _ => rfl
  simp only [breakable, hexit, Bool.false_eq_true, if_false, bind_pure]

theorem andThen_normal (x : Eval Exit) : andThen x (pure .normal) = x := by
  funext W
  rw [andThen, bind_apply]
  cases x W with
  | none => rfl
  | some p =>
    obtain ⟨r, W'⟩ := p
    cases r with
    | error e => rfl
    | ok exit => cases exit <;> rfl

theorem echoes_body (w : Envelope) (p : Program) : Echoes (evalBody h p.body act W) (evalBody h (w.around p).body act W) := by
  have hbody : evalBody h (w.around p).body act W =
      evalAttempt (evalBody h p.body) (evalHandler h w.catches) (evalFinalizer h w.finalizes) act W := by
    simp only [Envelope.around, evalBody, evalStmt, breakable_nil, evalKind, andThen_normal]
  rw [hbody]
  exact echoes_attempt w (evalBody h p.body)

/-! ## Scripts -/

theorem echoes_runBody (b b' : Body) (hb : b'.functions = b.functions ∧ b'.strict = b.strict ∧ b'.keepsValue = b.keepsValue)
    (hs : ∀ act W, Echoes (evalBody h b.statements act W) (evalBody h b'.statements act W)) (chain : Chain) (receiver : Value)
    (W : World) : Echoes (runBody h b chain receiver W) (runBody h b' chain receiver W) := by
  obtain ⟨hfunctions, hstrict, hkeeps⟩ := hb
  simp only [runBody, hfunctions, hstrict, hkeeps]
  refine .withoutValue (fun W => .behind _ (fun _ W => ?_) W) W
  exact (hs _ W).bind _

/-- **A script in an envelope comes to an echo of what the script comes to.** -/
theorem echoes_runScript (w : Envelope) {p : Program} (hp : hasUseStrict p.body = false)
    (check : Bool → Program → Option Fault) (n : Nat) (W : World) :
    Echoes (runScript check n p W) (runScript check n (w.around p) W) := by
  have htable : programTable (w.around p) = programTable p := by
    rw [programTable, programTable, Envelope.declarations_around]
  simp only [runScript, htable]
  refine .behind _ (fun W₀ => .behind _ fun _ W => ?_) W
  cases n with
  | zero => exact .nothing
  | succ n =>
    have hfunctions : ∀ strict, (programBody (w.around p) strict).functions = (programBody p strict).functions := by
      simp only [programBody, htable, Envelope.declarations_around, implies_true]
    have hstrict : ∀ strict, (programBody (w.around p) strict).strict = (programBody p strict).strict := by
      simp only [programBody, Envelope.hasUseStrict_around, hp, implies_true]
    exact echoes_runBody (programBody p _) (programBody (w.around p) _) ⟨hfunctions _, hstrict _, rfl⟩
      (fun act W => echoes_body w p) _ _ W

end ScriptEngine.Meaning
