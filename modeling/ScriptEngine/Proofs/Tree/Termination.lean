/-
Reading a program ends. Each turn of a loop of the grammar fails, ends the
loop or reads a token before the next turn, and the calls in a turn start with
less before them; so the nesting is bounded by the number of tokens. Main
statement: `parse_terminates`.
-/
import ScriptEngine.Proofs.Tree.Progress

namespace ScriptEngine.Grammar

open Parse

/-! ## Turns of a loop -/

/-- What a turn that began at `c` comes to: it fails, it ends the loop with the cursor at `exit`, or it has read
a token and goes on as the next turn, with less fuel. -/
inductive TurnResult {σ α : Type} (loop : σ → Production α) (n : Nat) (c exit : Cursor) : Except SyntaxFault (α × Cursor) → Prop
  | fails (e : SyntaxFault) : TurnResult loop n c exit (.error e)
  | ends (a : α) : TurnResult loop n c exit (.ok (a, exit))
  | goesOn (s : σ) {m : Cursor} (hm : c.Past true m) : TurnResult loop n c exit ((loop s).read n m)

/-- The rest of a turn that began at `c`, at another cursor. -/
def Turn {σ α : Type} (loop : σ → Production α) (n : Nat) (c exit : Cursor) (x : Parse α) (m : Cursor) : Prop :=
  TurnResult loop n c exit (x m)

namespace Turn

variable {σ α β : Type} {loop : σ → Production α} {n : Nat} {b : Bool} {c exit m : Cursor}

theorem ends {a : α} : Turn loop n c exit (pure a) exit := TurnResult.ends a

theorem goesOn {P : Cursor → Prop} (s : σ) (hm : Reached False c true P m) : Turn loop n c exit ((loop s).read n) m :=
  TurnResult.goesOn s hm.past

theorem throw_bind {e : SyntaxFault} {f : β → Parse α} : Turn loop n c exit (throw e >>= f) m := TurnResult.fails e

theorem bind {x z : Parse β} {g : β → β} {Q : β → Cursor → Prop} {f : β → Parse α}
    (hx : Steps False n n c 10 b g Q x x z m) (hf : ∀ a m', Reached False c b (Q a) m' → Turn loop n c exit (f a) m') :
    Turn loop n c exit (x >>= f) m := by
  change TurnResult loop n c exit (x m >>= fun p => f p.1 p.2)
  cases hr : x m with
  | error e => exact .fails e
  | ok p => exact hf p.1 p.2 ⟨hx.reads p.1 p.2 hr, False.elim⟩

theorem map_bind {γ : Type} {x z : Parse β} {g : β → β} {Q : β → Cursor → Prop} {k : β → γ} {f : γ → Parse α}
    (hx : Steps False n n c 10 b g Q x x z m)
    (hf : ∀ a m', Reached False c b (Q a) m' → Turn loop n c exit (f (k a)) m') :
    Turn loop n c exit (k <$> x >>= f) m := by
  rw [map_eq_pure_bind, bind_assoc]
  exact .bind hx hf

theorem token_bind {f : Token → Parse α} (h : Turn loop n c exit (f m.current) m) :
    Turn loop n c exit (token >>= f) m := h

theorem kind_bind {f : TokenKind → Parse α} (h : Turn loop n c exit (f m.current.kind) m) :
    Turn loop n c exit (kind >>= f) m := h

theorem atMark_bind {p : Punctuator} {f : Bool → Parse α} (h : Turn loop n c exit (f (m.current.kind.isMark p)) m) :
    Turn loop n c exit (atMark p >>= f) m := h

theorem identifier_bind {f : Identifier → Parse α}
    (h : m.current.kind.isEof = false → ∀ id, Turn loop n c exit (f id) m.next) : Turn loop n c exit (identifier >>= f) m := by
  rw [identifier, bind_assoc]
  refine token_bind ?_
  split
  case h_1 name hname => exact h (hname ▸ rfl) _
  case h_2 => exact .throw_bind

end Turn

section

variable {n : Nat} {c : Cursor} (hc : ∀ nodes, Gathered False "" c c false nodes c)
include hc

theorem turn_statements (stop : ListEnd) (before : Array Stmt) :
    Turn (.statements stop) n c c (statements (n + 1) stop before) c := by
  rw [statements]
  refine .kind_bind ?_
  split
  · exact .ends
  · exact .bind (.first (known n) .statement (hc []) rfl rfl) fun s _ hm => .goesOn (before.push s) hm

theorem turn_clauses (before : Array SwitchCase) : Turn .clauses n c c (clauses (n + 1) before) c := by
  have hn := known n
  rw [clauses]
  refine .kind_bind ?_
  split
  · exact .ends
  · extract_lets jp jpDefault
    have hjp : ∀ test nodes m, Gathered False "" c c true nodes m → Turn .clauses n c c (jp test) m := fun test _ _ hm =>
      .bind (.later hn (.statements .clause #[]) hm rfl) fun body _ hm => .goesOn (before.push ⟨test, body⟩) hm
    split
    case isTrue h =>
      exact .bind (.take (hc []) (TokenKind.not_eof_of_isWord h)) fun _ _ hm =>
        .bind (.later hn (.expression true) hm rfl) fun e _ hm => .bind (.expectMark hm) fun _ m hm => hjp (some e) _ m hm
    case isFalse =>
      split
      case isTrue h =>
        refine .bind (.take (hc []) (TokenKind.not_eof_of_isWord h)) fun _ _ hm => .bind (.expectMark hm) fun _ m hm => ?_
        split
        · exact .throw_bind
        · exact hjp none _ m hm
      case isFalse => exact .throw_bind

theorem turn_climbFrom (allowIn : Bool) (least : Nat) (left : Expr) :
    Turn (.climbFrom allowIn least) n c c (climbFrom (n + 1) allowIn least left) c := by
  have hn := known n
  rw [climbFrom]
  refine .kind_bind ?_
  split
  · exact .ends
  case h_2 op h =>
    split
    · exact .ends
    · refine .bind (.take (hc [.expr left]) (Operator.not_eof_of_between? h)) fun _ _ hm => ?_
      split
      · exact .bind (.later hn (.climb true op.secondary) hm rfl) fun _ _ hm => .bind (.expectMark hm) fun _ _ hm =>
          .bind (.later hn (.climb allowIn op.tertiary) hm rfl) fun _ _ hm => .bind (.build hm (by grind)) fun e _ hm => .goesOn e hm
      · exact .bind (.later hn (.climb allowIn op.secondary) hm rfl) fun _ _ hm => .bind (.build hm (by grind)) fun e _ hm =>
          .goesOn e hm

theorem turn_commaList (allowIn : Bool) (before : Array Expr) :
    Turn (.commaList allowIn) n c c (commaList (n + 1) allowIn before) c := by
  rw [commaList]
  refine .atMark_bind ?_
  split
  case isTrue h =>
    exact .bind (.take (hc []) (TokenKind.not_eof_of_isMark h)) fun _ _ hm =>
      .bind (.later (known n) (.climb allowIn Precedence.comma.succ) hm rfl) fun e _ hm => .goesOn (before.push e) hm
  case isFalse => exact .ends

theorem turn_suffixes (base : Expr) : Turn .suffixes n c c (suffixes (n + 1) base) c := by
  have hn := known n
  have haccess : Turn .suffixes n c c (access n base >>= suffixes n) c :=
    .bind (.run hn (.access base) (hc [.expr base]) (.inr rfl) (List.Subset.refl _) False.elim) fun e _ hm => .goesOn e hm
  rw [suffixes]
  refine .kind_bind ?_
  split
  · exact haccess
  · exact haccess
  · exact .bind (.run hn (.call base) (hc [.expr base]) (.inr rfl) (List.Subset.refl _) False.elim) fun e _ hm => .goesOn e hm
  · exact .ends

theorem turn_accesses (base : Expr) : Turn .accesses n c c (accesses (n + 1) base) c := by
  have haccess : Turn .accesses n c c (access n base >>= accesses n) c :=
    .bind (.run (known n) (.access base) (hc [.expr base]) (.inr rfl) (List.Subset.refl _) False.elim) fun e _ hm => .goesOn e hm
  rw [accesses]
  refine .kind_bind ?_
  split
  · exact haccess
  · exact haccess
  · exact .ends

theorem turn_elements (before : Array (Option Expr)) : Turn .elements n c c (elements (n + 1) before) c := by
  rw [elements]
  refine .kind_bind ?_
  split
  · exact .ends
  · split
    case isTrue h =>
      exact .bind (.take (hc []) (TokenKind.not_eof_of_isMark h)) fun _ _ hm => .goesOn (before.push none) hm
    case isFalse =>
      refine .bind (.first (known n) (.climb true Precedence.assignment) (hc []) rfl rfl) fun e _ hm =>
        .atMark_bind ?_
      extract_lets jp
      have hjp : ∀ u m, Gathered False "" c c true [.expr e] m → Turn .elements n c c (jp u) m := fun _ _ hm =>
        .goesOn (before.push (some e)) hm
      split
      · exact hjp () _ hm
      · exact .bind (.expectMark hm) hjp

theorem turn_properties (before : Array (String × Expr)) : Turn .properties n c c (properties (n + 1) before) c := by
  rw [properties]
  refine .kind_bind ?_
  split
  · exact .ends
  · extract_lets jp
    have hjp : ∀ key nodes m, Gathered False "" c c true nodes m → Turn .properties n c c (jp key) m := by
      intro key nodes m hm
      refine .bind (.expectMark hm) fun _ _ hm =>
        .bind (.later (known n) (.climb true Precedence.assignment) hm rfl) fun e _ hm => .atMark_bind ?_
      extract_lets jp
      have hjp : ∀ u m, Gathered False "" c c true (nodes ++ [Node.expr e]) m → Turn .properties n c c (jp u) m := fun _ _ hm =>
        .goesOn (before.push (key, e)) hm
      split
      · exact hjp () _ hm
      · exact .bind (.expectMark hm) hjp
    split
    case h_1 h => exact .bind (.take (hc []) (h ▸ rfl)) fun _ m hm => hjp _ _ m hm
    case h_2 h => exact .bind (.take (hc []) (h ▸ rfl)) fun _ m hm => hjp _ _ m hm
    case h_3 => exact .map_bind (.propertyName (hc [])) fun id m hm => hjp id.name _ m hm

theorem turn_parameters (before : Array Identifier) : Turn .parameters n c c.next (parameters (n + 1) before) c := by
  rw [parameters]
  refine .identifier_bind fun heof id => .atMark_bind ?_
  split
  case isTrue h =>
    have hm : Gathered False "" c c true [] c.next := ⟨(hc []).past.next_of_not_eof heof, False.elim⟩
    exact .bind (.take hm (TokenKind.not_eof_of_isMark h)) fun _ _ hm => .goesOn (before.push id) hm
  case isFalse => exact .ends

end

/-- Each loop of the grammar, at a cursor and with this much fuel. -/
structure LoopsTurn (n : Nat) (c : Cursor) : Prop where
  statements : ∀ stop before, Turn (.statements stop) n c c (statements (n + 1) stop before) c
  clauses : ∀ before, Turn .clauses n c c (clauses (n + 1) before) c
  parameters : ∀ before, Turn .parameters n c c.next (parameters (n + 1) before) c
  commaList : ∀ allowIn before, Turn (.commaList allowIn) n c c (commaList (n + 1) allowIn before) c
  climbFrom : ∀ allowIn least left, Turn (.climbFrom allowIn least) n c c (climbFrom (n + 1) allowIn least left) c
  suffixes : ∀ base, Turn .suffixes n c c (suffixes (n + 1) base) c
  accesses : ∀ base, Turn .accesses n c c (accesses (n + 1) base) c
  elements : ∀ before, Turn .elements n c c (elements (n + 1) before) c
  properties : ∀ before, Turn .properties n c c (properties (n + 1) before) c

theorem loopsTurn {n : Nat} {c : Cursor} (hc : ∀ nodes, Gathered False "" c c false nodes c) : LoopsTurn n c where
  statements := turn_statements hc
  clauses := turn_clauses hc
  parameters := turn_parameters hc
  commaList := turn_commaList hc
  climbFrom := turn_climbFrom hc
  suffixes := turn_suffixes hc
  accesses := turn_accesses hc
  elements := turn_elements hc
  properties := turn_properties hc

/-! ## Programs -/

theorem ofTokens_scan_closed (source : String) : (Cursor.ofTokens (Scanner.scan source)).Closed := by
  obtain ⟨tokens, last, hscan, hlast, -⟩ := (Scanner.scan_scans source).closed
  refine ⟨tokens, last, ?_, hlast⟩
  rw [hscan]
  cases tokens <;> rfl

theorem weight_lt_fuel (c : Cursor) (d : Production α) : c.weight d.rank < c.fuel :=
  Nat.add_lt_add_left d.rank_lt _

structure Ends (n : Nat) (c : Cursor) : Prop where
  /-- A call that does not fail goes forward. -/
  forward : ∀ (α : Type) (d : Production α) (a : α) (m : Cursor), d.read n c = .ok (a, m) → c.Past d.consumes m
  /-- A turn of a loop fails, is the last one or has read a token when the next one starts. -/
  loops : LoopsTurn n c
  /-- A call depends on calls with a smaller weight only, so on none of its own function that has as many
  tokens before it. -/
  nested : ∀ (α : Type) (d : Production α) (n' : Nat),
    AgreeBelow n n' (c.weight d.rank) → d.read (n + 1) c = d.read (n' + 1) c
  /-- The fuel that the number of tokens gives is enough, and more changes nothing. -/
  enough : c.fuel ≤ n → ∀ (α : Type) (d : Production α), d.read n c ≠ .error .exhausted ∧ d.read n c = d.read c.fuel c

theorem ends_of_closed {n : Nat} {c : Cursor} (hc : c.Closed) : Ends n c where
  forward α d a m := (known n).progress α d c hc a m
  loops := loopsTurn fun _ => ⟨hc.past, False.elim⟩
  nested _ d _ := read_agrees hc d
  enough hn α d :=
    ⟨endBelow_of_le hn α d c hc (weight_lt_fuel c d),
      agreeBelow_of_le hn (Nat.le_refl _) α d c hc (weight_lt_fuel c d)⟩

/-- **Parsing ends.** From each cursor over tokens that the end of input closes, and so from the start of each
text, calls and loops of the grammar go forward until they fail or end. The bound on their nesting is never met:
a larger one gives the same program. -/
theorem parse_terminates (source : String) :
    (∀ n c, c.Closed → Ends n c) ∧ (Cursor.ofTokens (Scanner.scan source)).Closed ∧
      Program.parse source ≠ .error .exhausted ∧
      ∀ n, (Cursor.ofTokens (Scanner.scan source)).fuel ≤ n → Program.parse source =
        (fun r => ⟨r.1⟩) <$> (statements n .program #[]).run (Cursor.ofTokens (Scanner.scan source)) := by
  have hc := ofTokens_scan_closed source
  generalize hcursor : Cursor.ofTokens (Scanner.scan source) = c at hc
  have hparse : Program.parse source = (fun r => ⟨r.1⟩) <$> (statements c.fuel .program #[]).run c := by
    rw [Program.parse, Program.ofTokens, hcursor]
    cases hr : (statements c.fuel .program #[]).run c <;> rfl
  have henough : ∀ n, c.fuel ≤ n → _ := fun n hn => (ends_of_closed hc).enough hn _ (.statements .program #[])
  refine ⟨fun n c hc => ends_of_closed hc, hc, fun h => ?_, fun n hn => ?_⟩
  · rw [hparse] at h
    refine (henough c.fuel (Nat.le_refl _)).1 ?_
    change (statements c.fuel .program #[]).run c = .error .exhausted
    cases hr : (statements c.fuel .program #[]).run c with
    | error e =>
      rw [hr] at h
      cases h
      rfl
    | ok r =>
      rw [hr] at h
      cases h
  · rw [hparse]
    exact congrArg _ (henough n hn).2.symm

end ScriptEngine.Grammar
