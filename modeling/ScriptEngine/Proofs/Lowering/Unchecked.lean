/-
Whether statements are checked to leave the stack as it was makes no difference
to the code of a well-formed program: the check never fails there.
Main statements: `lowerProgram_checkBalance`, and `compile_refusals` about all
programs that can be read.
-/
import ScriptEngine.Proofs.Lowering.Verdict
import ScriptEngine.Proofs.Tree.Parsed

namespace ScriptEngine

/-- **The check makes no difference to the code of a well-formed program.** -/
theorem Lowering.lowerProgram_checkBalance (o : LoweringOptions) (kind : UnitKind) (scopeKind : ScopeKind) (strict : Bool)
    {p : Program} (hp : bodyHolds FunctionTree.Guarded p.body) :
    lowerProgram { o with checkBalance := false } kind scopeKind strict p = lowerProgram o kind scopeKind strict p :=
  (lowerProgram_agrees hp _ kind scopeKind strict false).symm.trans (lowerProgram_agrees hp o kind scopeKind strict false)

/-- **A program that was read becomes a unit or is refused with a syntax or range error, and the
check makes no difference.** Along the way the code of every expression leaves one value more. -/
theorem compile_refusals {source : String} {p : Program} (h : Program.parse source = .ok p) (o : LoweringOptions)
    (strict : Bool) :
    (∀ f, compile o p = .error f → f.kind = .syntaxError ∨ f.kind = .rangeError) ∧
    (∀ f, compileEval o strict p = .error f → f.kind = .syntaxError ∨ f.kind = .rangeError) ∧
    compile { o with checkBalance := true } p = compile { o with checkBalance := false } p ∧
    compileEval { o with checkBalance := true } strict p = compileEval { o with checkBalance := false } strict p ∧
    ∀ n ctx e (st st' : Lowering.State), e.Holds (FunctionTree.Within n) →
      (∀ x ∈ st.builder.fixups, x.2.index < st.builder.labels.size) →
      Lowering.lowerExpr (Lowering.lowerFunction o n) ctx e st = .ok ((), st') →
      st'.builder.depth = st.builder.depth + 1 := by
  have hp := Program.parse_guarded h
  refine ⟨fun f hf => Lowering.lowerProgram_ofProgram hp hf, fun f hf => Lowering.lowerProgram_ofProgram hp hf, ?_, ?_, ?_⟩
  · exact (Lowering.lowerProgram_checkBalance { o with checkBalance := true } .global .global false hp).symm
  · exact (Lowering.lowerProgram_checkBalance { o with checkBalance := true } .eval .eval strict hp).symm
  · intro n ctx e st st' he hst hr
    exact Lowering.lowerExpr_depth (Lowering.admits_lowerFunction o n) he hst hr

theorem compile_refusals_attempt :
    ∃ p, Program.parse "a: while (b) { try { f(); } catch (e) { break a; } finally { g(); } }" = .ok p ∧
      ∀ f, compile .standard p = .error f → f.kind = .syntaxError ∨ f.kind = .rangeError := by
  have hok : (Program.parse "a: while (b) { try { f(); } catch (e) { break a; } finally { g(); } }").isOk = true := by
    decide +kernel
  cases h : Program.parse "a: while (b) { try { f(); } catch (e) { break a; } finally { g(); } }" with
  | error => simp [h, Except.isOk, Except.toBool] at hok
  | ok p => exact ⟨p, rfl, (compile_refusals h .standard false).1⟩

end ScriptEngine
