/-
Units and hosts. The code of a unit runs like the unit's body and hands the
value over, so frames inside frames run like evaluations inside evaluations to
any depth. Main statement: `hostSim`.
-/
import ScriptEngine.Proofs.Simulation.Statement

namespace ScriptEngine

open Meaning Layout

section

variable {M : Mode} {n : Nat} {h : Host} {K : Stage} {c : Setting} {act : Activation}

theorem does_functions (hM : M.linked = true) (hc : Suits M K c act) : ∀ (fs : List (String × FunctionTree)) (st : List Value),
    Does M n K (functionsAt c fs) (fillFunctions act fs) st fun _ => st
  | [], _ => .nil
  | (name, f) :: fs, st => by
    rw [functionsAt, fillFunctions, hc.strict]
    exact (does_closure hM hc _ rfl).seq fun v => (does_store hc name v).seq fun _ =>
      .skip (does_pop hc v) (does_functions hM hc fs st)

theorem Sim.withoutValue {x : Eval α} {W : World} {s : Step} {Q Q' : α → World → Step → Prop}
    {E E' : Raised → World → Step → Prop} (hx : Sim M n x { W with value := .undefined } s Q E)
    (hQ : ∀ a W' s', Q a W' s' → Q' a { W' with value := W.value } s')
    (hE : ∀ e W' s', E e W' s' → E' e { W' with value := W.value } s') :
    Sim M n (Meaning.withoutValue x) W s Q' E' := by
  refine hx.follow (fun hx => ?_) (fun a W' s' hx hs => .ok ?_ (hQ a W' s' hs)) fun e W' s' hx hs =>
    .error ?_ (hE e W' s' hs)
  all_goals rw [Meaning.withoutValue, hx]

theorem Leaves.delivers {v : Value} {W : World} {s : Step} (h : Leaves M K v W s) :
    ∃ r, Reaches 1 s (Machine.deliver r K.frame.purpose v K.callers) ∧ Rel M r W ∧ K.store.KeepsRecords r.store := by
  obtain ⟨r, f, st, rfl, hcode, hpurpose, hi, hst, hrel, hrecords⟩ := h
  have hn : (Machine.mk r f K.callers).next? = some ⟨.ret, none⟩ := by rw [Machine.next?, hcode, hi]
  have hx : Instruction.exec ⟨.ret, none⟩ ⟨r, f.past f.stack⟩ = .ok (.leave v) ⟨r, f.past st⟩ := by
    rw [hst]
    rfl
  refine ⟨r, ?_, hrel, hrecords⟩
  have hone : Reaches 1 (.run ⟨r, f, K.callers⟩) (Machine.step ⟨r, f, K.callers⟩) := by
    refine .one ⟨⟨_, hn⟩, fun e he => ?_, Machine.agrees_of_plain hn rfl⟩
    obtain ⟨j, A, hj, he⟩ := he
    rw [hn] at hj
    cases hj
    rw [show (Machine.mk r f K.callers).activity = ⟨r, f.past f.stack⟩ from rfl, hx] at he
    cases he
  rw [Machine.step_eq hn, show (Machine.mk r f K.callers).activity = ⟨r, f.past f.stack⟩ from rfl, hx] at hone
  dsimp only at hone
  rw [← hpurpose]
  exact hone

theorem At.leaves {pc : Nat} {v : Value} {st : List Value} {r W f} (hc : Suits M K c act)
    (hi : c.unit.instructions[pc]? = some ⟨.ret, none⟩) (hf : At M K pc (v :: st) r W f) :
    Leaves M K v W (.run ⟨r, f, K.callers⟩) :=
  ⟨r, f, st ++ K.frame.stack, rfl, hf.code, hf.purpose, by rw [hf.position, hc.unit]; exact hi, hf.stack, hf.rel,
    hf.records⟩

theorem At.loadLocal {pc t : Nat} {v : Value} {st : List Value} {r W f} (hc : Suits M K c act)
    (hi : c.unit.instructions[pc]? = some ⟨.loadLocal, some (.temporary t)⟩) (hf : At M K pc st r W f)
    (hv : f.temporary t = v) :
    Reaches 1 (.run ⟨r, f, K.callers⟩) (.run ⟨r, f.past (v :: st ++ K.frame.stack), K.callers⟩) := by
  rw [← hc.unit] at hi
  refine hf.reaches hi (hf.agrees hi rfl) ?_
  rw [← hv, hf.stack]
  rfl

theorem leave_sim {a b : Point} {st : List Value} {exit : Exit} {r W f} (hc : Suits M K c act)
    (hl : ((match c.completion with
      | some completion => emitWith c .loadLocal (.temporary completion)
      | none => emit c .loadUndefined) ++ emit c .ret) a b)
    (hexit : ∀ v, exit ≠ .returns v) (hf : At M K a.pc st r W f) :
    Sim M n (unitValue act.keepsValue exit) W (.run ⟨r, f, K.callers⟩) (Leaves M K) (Fails M K) := by
  obtain ⟨m, hload, -, hret, -⟩ := hl
  have hvalue : unitValue act.keepsValue exit = if act.keepsValue then do return (← get).value else return .undefined := by
    cases exit with
    | returns v => exact (hexit v rfl).elim
    | _ => rfl
  rw [hvalue, hc.keepsValue]
  cases hcompletion : c.completion with
  | some t =>
    rw [hcompletion] at hload
    obtain ⟨hi, hm⟩ := hload
    cases hm
    have hv := hf.value t (hc.completion.trans hcompletion)
    exact .reaches (hf.loadLocal hc hi hv) (.ok rfl ((hf.past (W.value :: st)).leaves hc hret)) (Nat.le_add_left n 1)
  | none =>
    rw [hcompletion] at hload
    obtain ⟨hi, hm⟩ := hload
    cases hm
    rw [← hc.unit] at hi
    have hx : Instruction.exec ⟨.loadUndefined, none⟩ ⟨r, f.past f.stack⟩ =
        .ok .proceed ⟨r, f.past (.undefined :: st ++ K.frame.stack)⟩ := by
      rw [hf.stack]
      rfl
    exact .reaches (hf.reaches hi (hf.agrees hi rfl) hx)
      (.pure ((hf.past (.undefined :: st)).leaves hc hret)) (Nat.le_add_left n 1)

theorem Frame.temporary_start (code : CodeUnit) (chain : Chain) (receiver : Value) (purpose : Purpose) (t : Nat) :
    (Frame.start code chain receiver purpose).temporary t = .undefined := by
  simp only [Frame.temporary, Frame.start, Array.getD_eq_getD_getElem?, Array.getElem?_replicate]
  split <;> rfl

theorem unit_sim (hM : M.Fits) (hh : HostSim M n h) {b : Body} {u : CodeUnit} {chain : Chain} {r W}
    (he : Enters M r.store b u chain) (hrel : Rel M r W) (receiver : Value) (purpose : Purpose)
    (callers : List Frame) :
    Sim M n (runBody h b chain receiver) W (.run ⟨r, .start u chain receiver purpose, callers⟩)
      (Delivers M r W purpose callers) (Unwinds M r W purpose callers) := by
  obtain ⟨hstrict, hchain, env, q, hm, m₁, hfunctions, h₁, m₂, hbody, -, hend⟩ := he
  let c : Setting := ⟨u, M.options.lowering, env, b.strict, if b.keepsValue then some 0 else none, []⟩
  let K : Stage := ⟨callers, .start u chain receiver purpose, r.store, if b.keepsValue then 1 else 0, c.completion⟩
  let act : Activation := ⟨chain, receiver, b.strict, b.keepsValue⟩
  have hc : Suits M K c act := by
    refine ⟨rfl, rfl, rfl, hstrict, rfl, ?_, rfl, hchain, rfl, hm, ?_⟩
    · cases hb : b.keepsValue <;> simp [act, c, hb]
    · intro t ht
      cases hb : b.keepsValue <;> simp_all [K, c]
  have hf : At M K 0 [] r { W with value := .undefined } (.start u chain receiver purpose) :=
    ⟨⟨hrel.value _, .refl _, rfl, rfl, rfl, rfl, fun _ _ _ => rfl, fun _ _ => rfl,
      fun t _ => Frame.temporary_start _ _ _ _ t⟩, rfl, rfl, rfl⟩
  refine Sim.withoutValue (Q := fun v W' s' => ∃ r', s' = Machine.deliver r' purpose v callers ∧ Rel M r' W' ∧
    r.store.KeepsRecords r'.store) (E := Fails M K) ?_ ?_ ?_
  · refine (does_functions hh.linked hc b.functions [] _ m₁ (Nat.le_refl _) hfunctions r _ _ hf).bind fun _ W₁ s₁ _ hs => ?_
    obtain ⟨r₁, f₁, rfl, hf₁⟩ := hs
    refine (does_body hM hh b.statements K c act hc m₁ m₂ [] h₁ hbody r₁ W₁ f₁ hf₁).bind fun exit W₂ s₂ _ hs => ?_
    have hleaves : Sim M n (unitValue act.keepsValue exit) W₂ s₂ (Leaves M K) (Fails M K) := by
      cases exit with
      | normal =>
        obtain ⟨st, r₂, f₂, rfl, hf₂⟩ := hs
        exact leave_sim hc hend nofun hf₂
      | jumps kind label =>
        obtain ⟨_, _, _, _, _, hC, -⟩ := hs
        exact hC.elim
      | returns v =>
        obtain ⟨-, hs⟩ | ⟨t, q, q', st, r₂, f₂, ⟨m, ⟨hi, hm⟩, -, hret, -⟩, -, rfl, hf₂, hkept⟩ := hs
        · exact .pure hs
        · cases hm
          exact .reaches (hf₂.loadLocal hc hi (hkept t v rfl).2.2) (.pure ((hf₂.past (v :: st)).leaves hc hret))
            (Nat.le_add_left n 1)
    refine hleaves.after fun v W' s' hs => ?_
    obtain ⟨r', hr, hrel', hrecords⟩ := hs.delivers
    exact ⟨1, _, hr, r', rfl, hrel', hrecords⟩
  · rintro v W' s' ⟨r', rfl, hrel', hrecords⟩
    exact ⟨r', rfl, hrel'.value _, hrecords, rfl⟩
  · rintro e W' s' ⟨r', f', st, rfl, hf', -, hv⟩
    exact ⟨r', f', rfl, hf'.handlers, hf'.purpose, ⟨hf'.rel.value _, hf'.records, rfl⟩, hv⟩

/-- **Frames run like the bodies of their units, to any depth.** -/
theorem hostSim (hl : M.linked = true) (hM : M.Fits) : ∀ n, HostSim M n (host M.check n)
  | 0 => ⟨hl, rfl, rfl, fun _ _ _ _ _ _ _ _ _ _ => .zero⟩
  | n + 1 => ⟨hl, rfl, rfl, fun _ _ _ receiver purpose callers _ _ he hrel =>
      unit_sim hM (hostSim hl hM n) he hrel receiver purpose callers⟩

end

end ScriptEngine
