/-
Sets of code points given as closed ranges.
-/

namespace ScriptEngine.Text

/-- `n` lies in one of the closed ranges. -/
def inRanges (ranges : List (Nat × Nat)) (n : Nat) : Bool :=
  ranges.any fun (lo, hi) => lo ≤ n && n ≤ hi

theorem inRanges_iff {ranges : List (Nat × Nat)} {n : Nat} :
    inRanges ranges n = true ↔ ∃ r ∈ ranges, r.1 ≤ n ∧ n ≤ r.2 := by
  simp [inRanges]

/-- The ranges a list of runs stands for, from the code point `n` on: how many code points lie
before the first range, how many in it, how many between it and the next, and so on. -/
def ofRuns (n : Nat) : List Nat → List (Nat × Nat)
  | apart :: size :: runs => (n + apart, n + apart + size - 1) :: ofRuns (n + apart + size) runs
  | _ => []

end ScriptEngine.Text
