/-
The history of an engine: all that it came through, from its start on. Between
scripts it waits, and while a script runs there is a machine. Every binding of a
growing record has an origin in the history (`History.origin`): those that can
be deleted come from code given to `eval` or from an assignment, the others were
there at the start, or a script or the call of a function declared them.
-/
import ScriptEngine.Proofs.Engine.Frames

namespace ScriptEngine

inductive Config
  | idle (e : Engine)
  | running (m : Machine)

namespace Config

def realm : Config → Realm
  | idle e => e
  | running m => m.realm

/-- A script is begun, a step is taken, the run is over, or what was printed is taken out. -/
inductive Next : Config → Config → Prop
  | script {e : Engine} {source : String} {code : CodeUnit} : compileSource e.options.lowering source = .ok code →
      Next (.idle e) (.running (.script code e))
  | step {m m' : Machine} : m.step = .run m' → Next (.running m) (.running m')
  | ends {m : Machine} {o : Outcome} : m.step = .done o → Next (.running m) (.idle o.realm)
  | output {e : Engine} : Next (.idle e) (.idle e.takeOutput.2)

def InSession (options : EngineOptions) : Config → Prop
  | idle e => Session options e
  | running m => ∃ e source, Session options e ∧ Engine.Passes e source m

end Config

/-- What an engine with these options is in now, and what it was in before, the latest first. -/
inductive History (options : EngineOptions) : Config → List Config → Prop
  | start : History options (.idle (.start options)) []
  | next {c c' : Config} {past : List Config} : History options c past → c.Next c' → History options c' (c :: past)

/-- The configurations of the first steps, the latest first. -/
def Machine.trace : Nat → Machine → List Config
  | 0, _ => []
  | n + 1, m =>
    match m.step with
    | .run m' => trace n m' ++ [.running m]
    | .done _ => []

theorem Machine.suffix_trace {m m' : Machine} {n : Nat} (hn : (Step.run m).after n = .run m') (past : List Config) :
    (.running m :: past) <:+ (.running m' :: (m.trace n ++ past)) := by
  cases n with
  | zero =>
    cases hn
    exact List.suffix_refl _
  | succ n =>
    rw [Step.after_run] at hn
    cases hs : m.step with
    | done o => rw [hs, Step.after_done] at hn; cases hn
    | run m₁ => exact ⟨.running m' :: m₁.trace n, by rw [trace, hs, List.append_assoc]; rfl⟩

/-! ## Histories and sessions -/

theorem Engine.snd_answer (o : Outcome) : (Engine.answer o).2 = o.realm := by
  unfold Engine.answer
  cases o.result <;> rfl

namespace History

variable {options : EngineOptions} {c : Config} {past : List Config} {e : Engine} {m m' : Machine} {source : String}

theorem inSession (h : History options c past) : c.InSession options := by
  induction h with
  | start => exact .start
  | next _ hnext ih =>
    cases hnext with
    | script hc => exact ⟨_, _, ih, Engine.passes_script hc ⟨0, rfl⟩⟩
    | step hstep =>
      obtain ⟨e, source, hs, hm⟩ := ih
      obtain ⟨code, hc, n, hn⟩ := hm.script
      refine ⟨e, source, hs, Engine.passes_script hc ⟨n + 1, ?_⟩⟩
      rw [Step.after_add, hn, Step.after_run, hstep, Step.after_zero]
    | @ends m o hstep =>
      obtain ⟨e, source, hs, hm⟩ := ih
      obtain ⟨code, hc, n, hn⟩ := hm.script
      have hrun : (Machine.script code e).run (n + 1) = some o := by
        rw [Machine.run_eq_some, Step.after_add, hn, Step.after_run, hstep, Step.after_zero]
      have heval : e.eval (n + 1) source = some ((Engine.answer o).1, o.realm) := by
        simp only [Engine.eval, hc, Realm.runScript_eq, hrun, Option.map_some, ← Engine.snd_answer]
      exact .eval hs heval
    | output => exact .takeOutput ih

theorem of_suffix {c' : Config} {past' : List Config} (h : History options c past)
    (hs : (c' :: past') <:+ (c :: past)) : History options c' past' := by
  induction h with
  | start =>
    obtain ⟨rfl, rfl⟩ := List.cons.inj (hs.eq_of_length_le (Nat.succ_le_succ (Nat.zero_le _)))
    exact .start
  | next h hnext ih =>
    rcases List.suffix_cons_iff.1 hs with heq | hs
    · obtain ⟨rfl, rfl⟩ := List.cons.inj heq
      exact h.next hnext
    · exact ih hs

theorem of_mem {c' : Config} (h : History options c past) (hc : c' ∈ c :: past) : ∃ past', History options c' past' := by
  obtain ⟨later, past', heq⟩ := List.append_of_mem hc
  exact ⟨past', h.of_suffix ⟨later, heq.symm⟩⟩

theorem sound (h : History options (.running m) past) : m.Sound := by
  obtain ⟨e, source, hs, hm⟩ := h.inSession
  exact hs.sound hm

theorem after {n : Nat} (h : History options (.running m) past) (hn : (Step.run m).after n = .run m') :
    History options (.running m') (m.trace n ++ past) := by
  induction n generalizing m past with
  | zero =>
    cases hn
    exact h
  | succ n ih =>
    rw [Step.after_run] at hn
    cases hs : m.step with
    | done o => rw [hs, Step.after_done] at hn; cases hn
    | run m₁ =>
      rw [hs] at hn
      have hih := ih (h.next (.step hs)) hn
      rwa [Machine.trace, hs, List.append_assoc]

theorem passes (h : History options (.idle e) past) (hm : e.Passes source m) :
    ∃ past', History options (.running m) past' ∧ (.idle e :: past) <:+ past' := by
  obtain ⟨code, hc, n, hn⟩ := hm.script
  exact ⟨_, (h.next (.script hc)).after hn, List.suffix_append _ _⟩

theorem eval (h : History options (.idle e) past) {fuel : Nat} {a : Answer} {e' : Engine}
    (he : e.eval fuel source = some (a, e')) :
    ∃ past', History options (.idle e') past' ∧ (.idle e :: past) <:+ (.idle e' :: past') := by
  rw [Engine.eval] at he
  cases hc : compileSource e.options.lowering source with
  | error f =>
    rw [hc] at he
    cases he
    exact ⟨past, h, List.suffix_refl _⟩
  | ok code =>
    rw [hc] at he
    simp only [Realm.runScript_eq, Option.map_eq_some_iff] at he
    obtain ⟨o, hrun, ha⟩ := he
    obtain ⟨m, hm, hstep⟩ := Machine.last_of_run hrun
    obtain ⟨past', h', hsuffix⟩ := h.passes (Engine.passes_script hc hm)
    have hrealm : e' = o.realm := by rw [← Engine.snd_answer o, ha]
    rw [hrealm]
    exact ⟨_, h'.next (.ends hstep), (hsuffix.trans (List.suffix_cons _ _)).trans (List.suffix_cons _ _)⟩

end History

theorem session_iff_history {options : EngineOptions} {e : Engine} :
    Session options e ↔ ∃ past, History options (.idle e) past := by
  refine ⟨fun h => ?_, fun h => h.elim fun _ h => h.inSession⟩
  induction h with
  | start => exact ⟨[], .start⟩
  | eval _ he ih =>
    obtain ⟨past, h⟩ := ih
    obtain ⟨past', h', -⟩ := h.eval he
    exact ⟨past', h'⟩
  | takeOutput _ ih =>
    obtain ⟨past, h⟩ := ih
    exact ⟨_, h.next .output⟩

/-! ## Bindings -/

namespace Machine

/-- The step begins a call, with this record for the variables of the function. -/
structure BeginsCall (m m' : Machine) (record : RecordRef) : Prop where
  step : m.step = .run m'
  deeper : m'.callers.length = m.callers.length + 1
  purpose : m'.frame.purpose ≠ .program
  scope : m'.frame.scope.head? = some record

/-- The step declares the name: in the record of a call for good, or for code given to `eval`. -/
def Declares (m m' : Machine) : Bindings := fun r name d =>
  name ∈ m'.frame.code.bindings ∧ (m.BeginsCall m' r ∧ d = false ∨ m'.frame.code.kind = .eval ∧ d = true)

/-- What becomes of the realm and the frames of a machine until a frame begins. -/
structure Turned (m : Machine) (new : Bindings) (r : Realm) (fs : List Frame) : Prop where
  global : r.global = m.realm.global
  store : m.realm.store.Turns new r.store
  frames : fs.length ≤ m.frames.length

variable {m m' : Machine} {C : CodeUnit → CodeUnit → Prop} {new : Bindings}

theorem persists_turned : Persists C new (m.Turned new) where
  goesOn h hr _ _ := ⟨hr.global.trans h.global, h.store.trans hr.store, h.frames⟩
  ends {r f fs} h := by
    refine ⟨?_, ?_, Nat.le_of_succ_le h.frames⟩ <;> cases f.purpose
    · exact h.global
    · exact h.global
    · exact h.global
    · exact h.store
    · exact h.store
    · exact h.store

theorem makesOnly_names (m : Machine) :
    m.MakesOnly (fun u code => code ∈ u.functions) fun _ name d => d = true ∧ m.named? = some (.storeName, name) := by
  refine fun i hi => ⟨(m.makesOnly i hi).1, ?_⟩
  rintro r name d ⟨rfl, k, rfl, hk⟩
  exact ⟨rfl, Machine.named?_eq_some.2 ⟨k, hi, hk⟩⟩

theorem step_turned (hm : m.MakesOnly C new) :
    m.step.Holds (m.Turned new) ∨ ∃ m', m.step = .run m' ∧ m.Enters C new m' :=
  persists_turned.step hm ⟨rfl, .refl _, Nat.le_refl _⟩

theorem step_turns (h : m.step = .run m') (hm : m.MakesOnly C new) : m'.realm.global = m.realm.global ∧
    m.realm.store.Turns (fun r name d => new r name d ∨ m.Declares m' r name d) m'.realm.store := by
  rcases step_turned hm with hturned | ⟨m₁, hrun, f, hcallers, -, -, henters⟩
  · rw [h] at hturned
    exact ⟨hturned.global, hturned.store.mono fun _ _ _ => .inl⟩
  · cases h.symm.trans hrun
    have hdeeper : m'.callers.length = m.callers.length + 1 := by rw [hcallers]; rfl
    generalize hframe : m'.frame = frame at henters
    cases henters with
    | call _ hpurpose _ _ hgo _ =>
      refine ⟨hgo.global, hgo.store.mono fun r name d hnew => hnew.imp_right ?_⟩
      rintro ⟨rfl, hname, rfl⟩
      exact ⟨by rw [hframe]; exact hname, .inl ⟨⟨h, hdeeper, by rw [hframe]; exact hpurpose, by rw [hframe]; rfl⟩, rfl⟩⟩
    | eval hcode hgo =>
      refine ⟨hgo.global, hgo.store.mono fun r name d hnew => hnew.imp_right ?_⟩
      rintro ⟨hname, rfl⟩
      exact ⟨by rw [hframe]; exact hname, .inr ⟨by rw [hframe]; exact Lowering.lowerProgram_kind hcode, rfl⟩⟩

theorem BeginsCall.fixes {record : RecordRef} (h : m.BeginsCall m' record) : ¬ m.realm.store.Growing record ∧
    ∀ name ∈ m'.frame.code.bindings, m'.realm.store.Fixes record name := by
  obtain ⟨hstep, hdeeper, hpurpose, hscope⟩ := h
  rcases step_turned m.makesOnly with hturned | ⟨m₁, hrun, f, -, -, -, henters⟩
  · rw [hstep] at hturned
    have hframes : m'.callers.length + 1 ≤ m.callers.length + 1 := hturned.frames
    omega
  · cases hstep.symm.trans hrun
    generalize m'.frame = frame at henters hpurpose hscope
    cases henters with
    | call _ _ _ hfresh _ hfixed =>
      cases Option.some.inj hscope
      exact ⟨hfresh, hfixed⟩
    | eval => exact (hpurpose rfl).elim

end Machine

inductive Origin (options : EngineOptions) (history : List Config) (r : RecordRef) (name : String) : Bool → Prop
  | builtin : r = (Realm.start options).global → name ∈ builtinGlobals.map Prod.fst → Origin options history r name false
  | script {m : Machine} : .running m ∈ history → m.frame.code.kind = .global → r = m.realm.global →
      name ∈ m.frame.code.bindings → Origin options history r name false
  | call {m m' : Machine} {earlier : List Config} : (.running m' :: .running m :: earlier) <:+ history → m.BeginsCall m' r →
      name ∈ m'.frame.code.bindings → Origin options history r name false
  | eval {m : Machine} : .running m ∈ history → m.frame.code.kind = .eval → name ∈ m.frame.code.bindings →
      Origin options history r name true
  | assigned {m : Machine} : .running m ∈ history → m.named? = some (.storeName, name) → Origin options history r name true

namespace Origin

variable {options : EngineOptions} {history : List Config} {r : RecordRef} {name : String} {d : Bool}

theorem mono {history' : List Config} (h : history <:+ history') (ho : Origin options history r name d) :
    Origin options history' r name d := by
  cases ho with
  | builtin hr hname => exact .builtin hr hname
  | script hm hkind hr hname => exact .script (h.subset hm) hkind hr hname
  | call hm hcall hname => exact .call (hm.trans h) hcall hname
  | eval hm hkind hname => exact .eval (h.subset hm) hkind hname
  | assigned hm hname => exact .assigned (h.subset hm) hname

end Origin

/-! ## The start -/

theorem Store.turns_installGlobals (s : Store) (global : RecordRef) :
    s.Turns (fun r name d => r = global ∧ name ∈ builtinGlobals.map Prod.fst ∧ d = false) (s.installGlobals global) := by
  have hall : ∀ (gs : List (String × GlobalValue)) (s : Store), (∀ g ∈ gs, g ∈ builtinGlobals) →
      s.Turns (fun r name d => r = global ∧ name ∈ builtinGlobals.map Prod.fst ∧ d = false)
        (gs.foldl (fun s g => ((g.2.make (s.declare global g.1 false).2).2.setVariable global g.1
          (g.2.make (s.declare global g.1 false).2).1).2) s) := by
    intro gs
    induction gs with
    | nil => exact fun s _ => .refl s
    | cons g gs ih =>
      intro s hgs
      have hmade : (s.declare global g.1 false).2.Settled (g.2.make (s.declare global g.1 false).2).2 := by
        cases g.2 with
        | builtin b => exact Store.settled_addCallable _ _
        | constant v => exact .refl _
      have hset := hmade.trans (Store.settled_setVariable _ global g.1 (g.2.make (s.declare global g.1 false).2).1)
      refine (((s.turns_declare global g.1 false).mono ?_).trans (hset.mono fun _ _ _ => False.elim)).trans
        (ih _ fun g' hg' => hgs g' (.tail _ hg'))
      rintro r name d ⟨rfl, rfl, rfl⟩
      exact ⟨rfl, List.mem_map_of_mem (hgs g (.head _)), rfl⟩
  exact hall builtinGlobals s fun _ h => h

theorem Realm.turns_start (options : EngineOptions) : (start options).store.Growing (start options).global ∧
    ∀ r name d, (start options).store.HasBinding r name d →
      r = (start options).global ∧ name ∈ builtinGlobals.map Prod.fst ∧ d = false := by
  have hadded : Store.empty.Settled (Store.empty.addRecord (.dynamic ∅)).2 :=
    Store.empty.settled_addRecord fun _ h => (Record.dynamic.inj h).symm
  have hturns := Store.turns_installGlobals (Store.empty.addRecord (.dynamic ∅)).2 (Store.empty.addRecord (.dynamic ∅)).1
  have hgrowing : (Store.empty.addRecord (.dynamic ∅)).2.Growing (Store.empty.addRecord (.dynamic ∅)).1 :=
    ⟨by decide, by rw [Store.record_addRecord]; rfl⟩
  have hstore : (start options).store =
      Store.installGlobals (Store.empty.addRecord (.dynamic ∅)).2 (Store.empty.addRecord (.dynamic ∅)).1 := by rw [start]
  have hglobal : (start options).global = (Store.empty.addRecord (.dynamic ∅)).1 := by rw [start]
  rw [hstore, hglobal]
  refine ⟨hturns.growing _ hgrowing, fun r name d hb => ?_⟩
  rcases hturns.bound r name d hb with hb | hb
  · rcases hadded.bound r name d hb with hb | hb
    · exact (Store.not_hasBinding_of_le _ (Nat.zero_le _) hb).elim
    · exact hb.elim
  · exact hb

namespace History

variable {options : EngineOptions} {c : Config} {past : List Config}

theorem origin_next {c' : Config} (hnext : c.Next c') :
    c'.realm.global = c.realm.global ∧ c.realm.store.Turns (Origin options (c' :: c :: past)) c'.realm.store := by
  cases hnext with
  | @script e source code hc =>
    refine ⟨rfl, (Store.turns_declareAll _ _ _ _).mono ?_⟩
    rintro r name d ⟨hr, hname, rfl⟩
    obtain ⟨p, -, hp⟩ := compileSource_eq_ok hc
    exact .script (.head _) (Lowering.lowerProgram_kind hp) hr hname
  | @step m m' hstep =>
    obtain ⟨hglobal, hturns⟩ := Machine.step_turns hstep m.makesOnly_names
    refine ⟨hglobal, hturns.mono ?_⟩
    rintro r name d (⟨rfl, hname⟩ | ⟨hname, ⟨hcall, rfl⟩ | ⟨hkind, rfl⟩⟩)
    · exact .assigned (.tail _ (.head _)) hname
    · exact .call (List.suffix_refl _) hcall hname
    · exact .eval (.head _) hkind hname
  | @ends m o hstep =>
    rcases Machine.step_turned m.makesOnly_names with hturned | ⟨m', hrun, -⟩
    · rw [hstep] at hturned
      refine ⟨hturned.global, hturned.store.mono ?_⟩
      rintro r name d ⟨rfl, hname⟩
      exact .assigned (.tail _ (.head _)) hname
    · cases hstep.symm.trans hrun
  | output => exact ⟨rfl, .refl _⟩

/-- **Every binding of a growing record has an origin.** The global record is such a record all along. -/
theorem origin (h : History options c past) : c.realm.global = (Realm.start options).global ∧
    c.realm.store.Growing c.realm.global ∧
    ∀ r name d, c.realm.store.HasBinding r name d → Origin options (c :: past) r name d := by
  induction h with
  | start =>
    obtain ⟨hgrowing, hbound⟩ := Realm.turns_start options
    refine ⟨rfl, hgrowing, fun r name d hb => ?_⟩
    obtain ⟨hr, hname, rfl⟩ := hbound r name d hb
    exact .builtin hr hname
  | next h hnext ih =>
    obtain ⟨hglobal, hgrowing, horigin⟩ := ih
    obtain ⟨hglobal', hturns⟩ := origin_next hnext
    refine ⟨hglobal'.trans hglobal, hglobal' ▸ hturns.growing _ hgrowing, fun r name d hb => ?_⟩
    rcases hturns.bound r name d hb with hb | hnew
    · exact (horigin r name d hb).mono (List.suffix_cons _ _)
    · exact hnew

end History

end ScriptEngine
