/-
Positions in a tree are positions in its text. A statement spans the tokens it
was read from and whatever hangs on it lies in that stretch, because each
function of the grammar places what it reads behind what was there before
(`Grammar.Places`). Main statement: `parse_positions`.
-/
import ScriptEngine.Proofs.Tree.Progress

namespace ScriptEngine

/-- The positions in a list of statements and everything that hangs on it are those of a text. -/
structure Positions (source : String) (body : List Stmt) : Prop where
  /-- At the span of a name the text is that name. -/
  names : ∀ id, (Node.identifier id).Below (.body body) → id.span.slice source = id.name
  /-- A statement spans the tokens that it was read from. -/
  spans : ∀ s, (Node.stmt s).Below (.body body) → ∃ read, s.ReadFrom source read
  /-- A statement that hangs on another one, also through functions in its expressions, lies in its span. -/
  nested : ∀ s t, (Node.stmt s).Below (.body body) → (Node.stmt t).Below (.stmt s) → t.span.Inside s.span
  /-- The statements of a list stand behind each other. -/
  ordered : ∀ ss, (Node.body ss).Below (.body body) → ss.Pairwise fun s t => s.span.stop ≤ t.span.start

/-- **The positions in a tree are those of its text.** -/
theorem Program.parse_positions {source : String} {p : Program} (h : Program.parse source = .ok p) :
    Positions source p.body := by
  simp only [Program.parse, Program.ofTokens, bind, Except.bind] at h
  split at h
  case h_1 => cases h
  case h_2 r hr =>
    cases h
    obtain ⟨hspread, -⟩ := (Grammar.known _).places source _ (.statements .program #[]) _ [] _ (List.nil_subset _) .nil
      (.start (Cursor.standsIn_start source)) _ _ hr
    have hplaced := hspread.placed (.body r.1) (List.mem_singleton.2 rfl)
    exact ⟨fun id hid => hplaced.faithful _ hid, fun s hs => (hplaced.faithful _ hs).1,
      fun s t hs ht => (hplaced.faithful _ hs).2 t ht, fun ss hss => hplaced.faithful _ hss⟩

/-- Two labels, a function among the arguments, a keyword for a property, and statements that end without a
semicolon. -/
theorem Program.parse_positions_labelled :
    ∃ p, Program.parse "L: M: f(function (x) \x7b x.in; return x \x7d)\nb" = .ok p ∧
      (p.body.map fun s => (s.labels, s.span)) = [(["L", "M"], ⟨0, 40⟩), ([], ⟨41, 42⟩)] ∧
      Positions "L: M: f(function (x) \x7b x.in; return x \x7d)\nb" p.body := by
  have hread : ((Program.parse "L: M: f(function (x) \x7b x.in; return x \x7d)\nb").toOption.map fun p =>
      p.body.map fun s => (s.labels, s.span)) = some [(["L", "M"], ⟨0, 40⟩), ([], ⟨41, 42⟩)] := by decide +kernel
  cases h : Program.parse "L: M: f(function (x) \x7b x.in; return x \x7d)\nb" with
  | error =>
    rw [h] at hread
    cases hread
  | ok p =>
    rw [h] at hread
    exact ⟨p, rfl, Option.some.inj hread, Program.parse_positions h⟩

end ScriptEngine
