/-
Deleting variables. What a function declares is in the record of each of its
calls for good, in a slot or in a binding, whatever runs later; so deleting it
does nothing, wherever the deletion is written. A binding that only code given
to `eval` or an assignment has made goes away. Main statement:
`history_deletes`.
-/
import ScriptEngine.Proofs.Engine.History

namespace ScriptEngine

namespace Machine

/-- The next instruction deletes a variable. Where it is known to be in a slot, nothing is left to do but
to yield false. -/
def Deletes (m : Machine) (name : String) : Prop :=
  m.named? = some (.deleteName, name) ∨ m.next? = some ⟨.loadFalse, none⟩ ∧ m.noted? = some (.loadFalse, name)

/-- The instruction yields a Boolean; the store is another one then. -/
def yields (m : Machine) (b : Bool) (store : Store) : Machine :=
  ⟨{ m.realm with store := store }, m.activity.frame.push (.boolean b), m.callers⟩

variable {m : Machine} {name : String}

theorem step_deleteName (h : m.named? = some (.deleteName, name)) :
    m.step = .run (m.yields (m.realm.store.deleteBinding name m.frame.scope).1
      (m.realm.store.deleteBinding name m.frame.scope).2) := by
  obtain ⟨k, hi, hk⟩ := named?_eq_some.1 h
  have hk : m.activity.frame.code.constants[k]? = some (.string name) := hk
  rw [step_eq hi]
  simp only [Instruction.exec, Exec.nameOperand, Exec.nameAt, Bind.bind, EStateM.bind, Exec.readFrame, hk,
    pure, EStateM.pure, Exec.deleteName, Exec.withStore, Exec.inRealm, Realm.withStore, Exec.pushBoolean, Exec.push,
    Exec.modifyFrame]
  rfl

theorem step_loadFalse (h : m.next? = some ⟨.loadFalse, none⟩) : m.step = .run (m.yields false m.realm.store) := by
  rw [step_eq h]
  rfl

end Machine

namespace History

variable {options : EngineOptions} {c c' : Config} {past past' : List Config} {r : RecordRef} {name : String}

theorem fixes (h : History options c past) (hs : (c' :: past') <:+ (c :: past)) (hf : c'.realm.store.Fixes r name) :
    c.realm.store.Fixes r name := by
  induction h with
  | start =>
    obtain ⟨rfl, rfl⟩ := List.cons.inj (hs.eq_of_length_le (Nat.succ_le_succ (Nat.zero_le _)))
    exact hf
  | @next c c' past h hnext ih =>
    rcases List.suffix_cons_iff.1 hs with heq | hs
    · obtain ⟨rfl, rfl⟩ := List.cons.inj heq
      exact hf
    · obtain ⟨-, hturns⟩ : _ ∧ c.realm.store.Turns (Origin options (c' :: c :: past)) c'.realm.store := origin_next hnext
      exact hturns.fixes (ih hs)

end History

/-- **Declared variables are permanent, and only they.** Suppose that a variable is to be deleted, and
that the search for its name ends at a record. If this is the record of a call, begun at any time
before, and the function declares the name, then the deletion yields false and leaves everything as it
is. If the record grows, and nothing that is there for good has declared the name in it, then the
deletion yields true, and the record does not bind the name afterwards. -/
theorem history_deletes {options : EngineOptions} {m : Machine} {past : List Config}
    (h : History options (.running m) past) {name : String} (hd : m.Deletes name) {r : RecordRef} {outer : Chain}
    (hf : m.realm.store.find name m.frame.scope = some (r :: outer)) :
    (∀ m₀ m₁ earlier, (.running m₁ :: .running m₀ :: earlier) <:+ (.running m :: past) → m₀.BeginsCall m₁ r →
      name ∈ m₁.frame.code.bindings → m.step = .run (m.yields false m.realm.store)) ∧
    (m.realm.store.Growing r → ¬ Origin options (.running m :: past) r name false →
      ∃ store, m.step = .run (m.yields true store) ∧ store.binds r name = false) := by
  refine ⟨fun m₀ m₁ earlier hs hcall hname => ?_, fun hgrowing hfree => ?_⟩
  · rcases hd with hd | ⟨hi, -⟩
    · have hfixed : (Config.running m₁).realm.store.Fixes r name := hcall.fixes.2 name hname
      have hfixes : m.realm.store.Fixes r name := h.fixes hs hfixed
      rw [Machine.step_deleteName hd, Store.deleteBinding_of_find hf (Store.deleteVariable_of_fixes hfixes)]
    · exact Machine.step_loadFalse hi
  · rcases hd with hd | ⟨hi, hnoted⟩
    · obtain ⟨d, hb⟩ := hgrowing.hasBinding (Store.binds_of_find hf)
      have horigin := h.origin.2.2 r name d hb
      cases d with
      | false => exact (hfree horigin).elim
      | true =>
        obtain ⟨store, hdelete, hunbound⟩ := Store.deleteVariable_of_loose hb
        refine ⟨store, ?_, hunbound⟩
        rw [Machine.step_deleteName hd, Store.deleteBinding_of_find hf hdelete]
    · -- The variable of a slot is not in a record that grows.
      obtain ⟨depth, index, r', hslot⟩ := h.sound.agrees.deletes name hi (Machine.noted?_eq_some hnoted).2
      obtain ⟨rest, hfind⟩ := hslot.find
      obtain ⟨names, slots, hr, -⟩ := hslot.declarative
      cases hf.symm.trans hfind
      have hdynamic := hgrowing.dynamic
      rw [hr] at hdynamic
      cases hdynamic

/-! ## A run -/

def Step.machine? : Step → Option Machine
  | .run m => some m
  | .done _ => none

theorem Step.machine?_eq_some {s : Step} {m : Machine} : s.machine? = some m ↔ s = .run m := by
  cases s <;> simp [machine?]

/-- A script or a function that declares the name runs. -/
def Config.declares (name : String) : Config → Bool
  | running m => (m.frame.code.kind == .global || m.frame.purpose != .program) && m.frame.code.bindings.contains name
  | idle _ => false

theorem Origin.declared {options : EngineOptions} {history : List Config} {r : RecordRef} {name : String}
    (h : Origin options history r name false) :
    name ∈ builtinGlobals.map Prod.fst ∨ ∃ c ∈ history, c.declares name = true := by
  cases h with
  | builtin _ hname => exact .inl hname
  | script hm hkind _ hname => exact .inr ⟨_, hm, by simp [Config.declares, hkind, hname]⟩
  | call hs hcall hname =>
    exact .inr ⟨_, hs.subset (.head _), by simp [Config.declares, hcall.purpose, hname]⟩

/-- The code given to `eval` declares the parameter again, and another variable. -/
theorem history_deletes_redeclared :
    (∃ m past, History .standard (.running m) past ∧ m.Deletes "a" ∧ m.step = .run (m.yields false m.realm.store)) ∧
    ∃ m past r store, History .standard (.running m) past ∧ m.Deletes "b" ∧ m.step = .run (m.yields true store) ∧
      store.binds r "b" = false := by
  let source := "function f(a) \x7b eval('var a, b'); delete a; return delete b; \x7d f(1);"
  let e : Engine := .start .standard
  have hstates : (compileSource e.options.lowering source).toOption.any (fun code =>
      (((Step.run (.script code e)).after 5).machine?.any fun m₀ => m₀.step.machine?.any fun m₁ =>
        (m₁.callers.length == m₀.callers.length + 1 && m₁.frame.purpose != .program &&
          m₁.frame.scope.head? == some ⟨1⟩ && m₁.frame.code.bindings.contains "a") &&
        ((Step.run m₁).after 6).machine?.any fun m => m.named? == some (.deleteName, "a") &&
          m.realm.store.find "a" m.frame.scope == some [⟨1⟩, ⟨0⟩]) &&
      ((Step.run (.script code e)).after 14).machine?.any fun m => m.named? == some (.deleteName, "b") &&
        m.realm.store.find "b" m.frame.scope == some [⟨1⟩, ⟨0⟩] && decide (1 < m.realm.store.records.size) &&
        (m.realm.store.record ⟨1⟩).isDynamic &&
        (.running m :: ((Machine.script code e).trace 14 ++ [.idle e])).all fun c => !c.declares "b") = true := by
    decide +kernel
  obtain ⟨code, hcode, hstates⟩ := (Option.any_eq_true _ _).1 hstates
  obtain ⟨hfirst, hsecond⟩ := Bool.and_eq_true_iff.1 hstates
  have hc : compileSource e.options.lowering source = .ok code := eq_ok_of_toOption hcode
  have hscript : History .standard (.running (.script code e)) [.idle e] := .next .start (.script hc)
  refine ⟨?_, ?_⟩
  · obtain ⟨m₀, hm₀, hfirst⟩ := (Option.any_eq_true _ _).1 hfirst
    obtain ⟨m₁, hm₁, hfirst⟩ := (Option.any_eq_true _ _).1 hfirst
    obtain ⟨hcall, hfirst⟩ := Bool.and_eq_true_iff.1 hfirst
    obtain ⟨m, hm, hfirst⟩ := (Option.any_eq_true _ _).1 hfirst
    simp only [Bool.and_eq_true, beq_iff_eq, bne_iff_ne, Array.contains_iff_mem] at hcall hfirst
    obtain ⟨⟨⟨hdeeper, hpurpose⟩, hscope⟩, ha⟩ := hcall
    have hstep := Step.machine?_eq_some.1 hm₁
    have hlater := Step.machine?_eq_some.1 hm
    have h := ((hscript.after (Step.machine?_eq_some.1 hm₀)).next (.step hstep)).after hlater
    exact ⟨m, _, h, .inl hfirst.1, (history_deletes h (.inl hfirst.1) hfirst.2).1 m₀ m₁ _ (Machine.suffix_trace hlater _)
      ⟨hstep, hdeeper, hpurpose, hscope⟩ ha⟩
  · obtain ⟨m, hm, hsecond⟩ := (Option.any_eq_true _ _).1 hsecond
    simp only [Bool.and_eq_true, beq_iff_eq, decide_eq_true_eq, List.all_eq_true, Bool.not_eq_true'] at hsecond
    obtain ⟨⟨⟨⟨hnamed, hfind⟩, hlt⟩, hdynamic⟩, hnone⟩ := hsecond
    have h := hscript.after (Step.machine?_eq_some.1 hm)
    have hfree : ¬ Origin .standard (.running m :: ((Machine.script code e).trace 14 ++ [.idle e])) ⟨1⟩ "b" false := by
      intro horigin
      rcases horigin.declared with hbuiltin | ⟨c, hc, hdeclares⟩
      · exact absurd hbuiltin (by decide)
      · cases hdeclares.symm.trans (hnone c hc)
    obtain ⟨store, hstep, hunbound⟩ := (history_deletes h (.inl hnamed) hfind).2 ⟨hlt, hdynamic⟩ hfree
    exact ⟨m, _, _, store, h, .inl hnamed, hstep, hunbound⟩

end ScriptEngine
