/-
Reading depends on tokens and line breaks alone: a program is read from its
tokens, and no function of the grammar looks at their places. Main statement:
`Program.parse_of_kinds`.
-/
import ScriptEngine.Proofs.Tree.Termination

namespace ScriptEngine

theorem Program.parse_placeless (source : String) :
    (Program.ofTokens ((Scanner.scan source).map Token.placeless)).toOption =
      (Program.parse source).toOption.map Program.placeless := by
  have hc := Grammar.ofTokens_scan_closed source
  rw [Program.parse]
  generalize Scanner.scan source = tokens at hc
  have h := (Grammar.known (Cursor.ofTokens tokens).fuel).forgetful _ (.statements .program #[]) _ hc
  simp only [Grammar.Production.placeless, Grammar.Production.read, Array.map_empty] at h
  simp only [Program.ofTokens, Cursor.ofTokens_placeless, Cursor.fuel_placeless]
  simp only [StateT.run]
  generalize Grammar.statements (Cursor.ofTokens tokens).fuel .program #[] (Cursor.ofTokens tokens) = x at h
  generalize Grammar.statements (Cursor.ofTokens tokens).fuel .program #[] (Cursor.ofTokens tokens).placeless = y at h
  cases x <;> cases y <;> cases h <;> rfl

theorem Token.map_placeless_eq {ts us : List Token}
    (h : (ts.map fun t => (t.kind, t.newlineBefore)) = us.map fun t => (t.kind, t.newlineBefore)) :
    ts.map Token.placeless = us.map Token.placeless := by
  have hfun : Token.placeless = (fun p : TokenKind × Bool => ⟨p.1, .nowhere, p.2⟩) ∘
      fun t : Token => (t.kind, t.newlineBefore) := rfl
  rw [hfun, ← List.map_map, h, List.map_map]

/-- **Reading depends on tokens and line breaks alone.** Two texts whose tokens
have the same kinds and the same line breaks before them are both no programs,
or they are programs that are equal without their places. -/
theorem Program.parse_of_kinds {s t : String}
    (h : ((Scanner.scan s).map fun u => (u.kind, u.newlineBefore)) =
      (Scanner.scan t).map fun u => (u.kind, u.newlineBefore)) :
    (∃ e f, Program.parse s = .error e ∧ Program.parse t = .error f) ∨
      ∃ p q, Program.parse s = .ok p ∧ Program.parse t = .ok q ∧ p.placeless = q.placeless := by
  have hs := Program.parse_placeless s
  rw [Token.map_placeless_eq h, Program.parse_placeless] at hs
  cases hp : Program.parse s with
  | error e =>
    cases hq : Program.parse t with
    | error f => exact .inl ⟨e, f, rfl, rfl⟩
    | ok q =>
      rw [hp, hq] at hs
      cases hs
  | ok p =>
    cases hq : Program.parse t with
    | error f =>
      rw [hp, hq] at hs
      cases hs
    | ok q =>
      rw [hp, hq] at hs
      exact .inr ⟨p, q, rfl, rfl, (Option.some.inj hs).symm⟩

/-- Both tokens stand on the same side of a line break and are the same word,
mark, name or text. Numbers are not compared. -/
def Token.isLike (t u : Token) : Bool :=
  t.newlineBefore == u.newlineBefore &&
    match t.kind, u.kind with
    | .string a, .string b => a == b
    | .identifier a, .identifier b => a == b
    | .word a, .word b => a == b
    | .mark a, .mark b => a == b
    | .invalid a, .invalid b => a == b
    | .eof, .eof => true
    | _, _ => false

theorem Token.kind_eq_of_isLike {t u : Token} (h : t.isLike u = true) :
    (t.kind, t.newlineBefore) = (u.kind, u.newlineBefore) := by
  obtain ⟨k, s, n⟩ := t
  obtain ⟨k', s', n'⟩ := u
  cases k <;> cases k' <;> simp_all [isLike]

def Token.areLike : List Token → List Token → Bool
  | [], [] => true
  | t :: ts, u :: us => t.isLike u && areLike ts us
  | _, _ => false

theorem Token.kinds_eq_of_areLike {ts us : List Token} (h : areLike ts us = true) :
    (ts.map fun t => (t.kind, t.newlineBefore)) = us.map fun t => (t.kind, t.newlineBefore) := by
  induction ts generalizing us with
  | nil =>
    cases us with
    | nil => rfl
    | cons u us => cases h
  | cons t ts ih =>
    cases us with
    | nil => cases h
    | cons u us =>
      obtain ⟨ht, hts⟩ := Bool.and_eq_true_iff.1 h
      rw [List.map_cons, List.map_cons, kind_eq_of_isLike ht, ih hts]

theorem Program.parse_of_kinds_spaced :
    ((Scanner.scan "a\n++b; f = function (x) \x7b return\nx \x7d").map fun u => (u.kind, u.newlineBefore)) =
        ((Scanner.scan "a // first\n ++ b;f=function(x)\x7breturn/* none\n */x\x7d").map
          fun u => (u.kind, u.newlineBefore)) ∧
      ((∃ e f, Program.parse "a\n++b; f = function (x) \x7b return\nx \x7d" = .error e ∧
          Program.parse "a // first\n ++ b;f=function(x)\x7breturn/* none\n */x\x7d" = .error f) ∨
        ∃ p q, Program.parse "a\n++b; f = function (x) \x7b return\nx \x7d" = .ok p ∧
          Program.parse "a // first\n ++ b;f=function(x)\x7breturn/* none\n */x\x7d" = .ok q ∧
          p.placeless = q.placeless) := by
  have hlike : Token.areLike (Scanner.scan "a\n++b; f = function (x) \x7b return\nx \x7d")
      (Scanner.scan "a // first\n ++ b;f=function(x)\x7breturn/* none\n */x\x7d") = true := by
    decide +kernel
  have h := Token.kinds_eq_of_areLike hlike
  exact ⟨h, Program.parse_of_kinds h⟩

end ScriptEngine
