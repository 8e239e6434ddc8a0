/-
Stretches of tokens. A reader goes forward from cursor to cursor, up to the end
of input (`Cursor.Past`), and what it consumes is the stretch between the two
(`Cursor.Reads`). A cursor that stands in the tokens of a text
(`Cursor.StandsIn`) has the token read last behind it and the current one in
front of it, in the order of the text.
-/
import ScriptEngine.Proofs.Source.Segmentation
import ScriptEngine.Proofs.Tree.Parsed

namespace ScriptEngine

/-! ## Tokens -/

theorem TokenKind.isWord_iff {k : TokenKind} {w : ReservedWord} : k.isWord w = true ↔ k = .word w := by
  cases k <;> simp [isWord]

theorem TokenKind.not_eof_of_isMark {k : TokenKind} {p : Punctuator} (h : k.isMark p = true) : k.isEof = false :=
  TokenKind.isMark_iff.1 h ▸ rfl

theorem TokenKind.not_eof_of_isWord {k : TokenKind} {w : ReservedWord} (h : k.isWord w = true) : k.isEof = false :=
  TokenKind.isWord_iff.1 h ▸ rfl

theorem Operator.not_eof_of_between? {k : TokenKind} {op : Operator} (h : between? k = some op) : k.isEof = false := by
  cases k with
  | eof => cases h
  | _ => rfl

theorem Operator.not_eof_of_before? {k : TokenKind} {op : Operator} (h : before? k = some op) : k.isEof = false := by
  cases k with
  | eof => cases h
  | _ => rfl

theorem requireReference_ne_exhausted (target : Expr) (use : TargetUse) (e : Expr) :
    (requireReference target use >>= fun _ => Except.ok e) ≠ .error .exhausted := by
  intro h
  rw [requireReference] at h
  split at h <;> cases h

theorem Operator.build_ne_exhausted (op : Operator) (operands : List Expr) : op.build operands ≠ .error .exhausted := by
  unfold Operator.build
  split
  all_goals first | exact requireReference_ne_exhausted _ _ _ | (intro h; cases h)

/-! ## Cursors -/

namespace Cursor

def Closed (c : Cursor) : Prop := ∃ before last, c.current :: c.later = before ++ [last] ∧ last.kind.isEof = true

/-- A closed cursor, at the same token or further, and further if it has moved. -/
structure Past (c : Cursor) (moved : Bool) (m : Cursor) : Prop where
  closed : m.Closed
  remaining : m.remaining + moved.toNat ≤ c.remaining

/-- The tokens that remain count first, then the rank at the current one. -/
def weight (c : Cursor) (rank : Nat) : Nat := 10 * c.remaining + rank

theorem Closed.past {c : Cursor} (h : c.Closed) : c.Past false c := ⟨h, Nat.le_refl _⟩

theorem Closed.next {c : Cursor} (h : c.Closed) : c.next.Closed := by
  obtain ⟨current, later, last⟩ := c
  cases later with
  | nil => exact h
  | cons t ts =>
    obtain ⟨before, last, hsplit, hlast⟩ := h
    cases before with
    | nil => cases hsplit
    | cons _ before => exact ⟨before, last, (List.cons.inj hsplit).2, hlast⟩

section

variable {c m m' : Cursor} {b b' : Bool}

theorem Past.forget (h : c.Past b m) : c.Past false m :=
  ⟨h.closed, Nat.le_trans (Nat.le_add_right _ _) h.remaining⟩

theorem Past.trans (h : c.Past b m) (h' : m.Past b' m') : c.Past (b || b') m' := by
  refine ⟨h'.closed, ?_⟩
  have := h.remaining
  have := h'.remaining
  cases b <;> cases b' <;> simp only [Bool.or_true, Bool.or_false, Bool.toNat_true, Bool.toNat_false] at * <;> omega

theorem Past.weight_lt {rank rank' : Nat} (h : c.Past true m) (hr : rank' < 10) : m.weight rank' < c.weight rank := by
  have := h.remaining
  simp only [Cursor.weight, Bool.toNat_true] at *
  omega

theorem Past.weight_lt_of_rank {rank rank' : Nat} (h : c.Past b m) (hr : rank' < rank) :
    m.weight rank' < c.weight rank := by
  have := h.forget.remaining
  simp only [Cursor.weight, Bool.toNat_false] at *
  omega

theorem Past.next (h : c.Past b m) : c.Past b m.next := by
  refine ⟨h.closed.next, Nat.le_trans (Nat.add_le_add_right ?_ _) h.remaining⟩
  obtain ⟨current, later, last⟩ := m
  cases later with
  | nil => exact Nat.le_refl _
  | cons t ts => exact Nat.le_succ _

theorem Past.next_cases (h : c.Past b m) :
    c.Past true m.next ∨ m.current.kind.isEof = true ∧ m.next.current = m.current := by
  have hclosed := h.closed.next
  obtain ⟨⟨before, last, hsplit, hlast⟩, hremaining⟩ := h
  obtain ⟨current, later, _⟩ := m
  cases later with
  | nil =>
    cases before with
    | nil =>
      cases hsplit
      exact .inr ⟨hlast, rfl⟩
    | cons _ before => simp at hsplit
  | cons t ts => exact .inl ⟨hclosed, Nat.le_trans (Nat.le_add_right _ _) hremaining⟩

theorem Past.next_of_not_eof (h : c.Past b m) (hm : m.current.kind.isEof = false) : c.Past true m.next :=
  h.next_cases.resolve_right fun heof => absurd (hm.symm.trans heof.1) Bool.false_ne_true

end

/-! ## Stretches -/

/-- These tokens lead from the first cursor to the second. -/
structure Reads (c : Cursor) (read : List Token) (m : Cursor) : Prop where
  tokens : c.current :: c.later = read ++ m.current :: m.later
  last : m.last = (read.getLast?.map Token.span).getD c.last

namespace Reads

variable {c m k : Cursor} {read more : List Token}

theorem refl (c : Cursor) : c.Reads [] c := ⟨rfl, rfl⟩

theorem trans (h : c.Reads read m) (h' : m.Reads more k) : c.Reads (read ++ more) k := by
  refine ⟨by rw [h.tokens, h'.tokens, List.append_assoc], ?_⟩
  rw [h'.last, h.last, List.getLast?_append]
  cases more.getLast? <;> rfl

theorem next (h : c.later ≠ []) : c.Reads [c.current] c.next := by
  obtain ⟨current, later, last⟩ := c
  obtain ⟨t, ts, rfl⟩ := List.exists_cons_of_ne_nil h
  exact ⟨rfl, rfl⟩

theorem head (h : c.Reads read m) (hne : read ≠ []) : ∃ rest, read = c.current :: rest := by
  obtain ⟨t, rest, rfl⟩ := List.exists_cons_of_ne_nil hne
  obtain ⟨rfl, -⟩ := List.cons.inj h.tokens
  exact ⟨rest, rfl⟩

theorem last_mem (h : c.Reads read m) (hne : read ≠ []) : ∃ t ∈ read, read.getLast? = some t ∧ m.last = t.span := by
  refine ⟨read.getLast hne, List.getLast_mem hne, List.getLast?_eq_some_getLast hne, ?_⟩
  rw [h.last, List.getLast?_eq_some_getLast hne]
  rfl

theorem ne_nil (h : c.Reads read m) (hlt : m.remaining < c.remaining) : read ≠ [] := by
  rintro rfl
  have hlater := (List.cons.inj h.tokens).2
  rw [remaining, remaining, hlater] at hlt
  exact Nat.lt_irrefl _ hlt

end Reads

def StandsIn (source : String) (c : Cursor) : Prop :=
  ∃ before, (ofTokens (Scanner.scan source)).Reads before c

theorem standsIn_start (source : String) : (ofTokens (Scanner.scan source)).StandsIn source := ⟨[], .refl _⟩

namespace StandsIn

variable {source : String} {c m : Cursor} {read : List Token}

theorem tokens (h : c.StandsIn source) : ∃ before, Scanner.scan source = before ++ c.current :: c.later ∧
    c.last = (before.getLast?.map Token.span).getD ⟨0, 0⟩ := by
  obtain ⟨before, hreads⟩ := h
  obtain ⟨init, last, hscan, -, -⟩ := (Scanner.scan_scans source).closed
  obtain ⟨t, ts, hts⟩ := List.exists_cons_of_ne_nil (l := Scanner.scan source) (by simp [hscan])
  rw [hts] at hreads ⊢
  exact ⟨before, hreads.tokens, hreads.last⟩

theorem reads (h : c.StandsIn source) (hr : c.Reads read m) : m.StandsIn source := by
  obtain ⟨before, hreads⟩ := h
  exact ⟨before ++ read, hreads.trans hr⟩

theorem mem (h : c.StandsIn source) : ∀ t ∈ c.current :: c.later, t ∈ Scanner.scan source := by
  obtain ⟨before, hscan, -⟩ := h.tokens
  intro t ht
  rw [hscan]
  exact List.mem_append_right before ht

theorem current_mem (h : c.StandsIn source) : c.current ∈ Scanner.scan source := h.mem _ (List.mem_cons_self ..)

theorem ordered (h : c.StandsIn source) : (c.current :: c.later).Pairwise fun s t => s.span.stop ≤ t.span.start := by
  obtain ⟨before, hscan, -⟩ := h.tokens
  have hordered := (Scanner.scan_scans source).ordered
  rw [hscan] at hordered
  exact (List.pairwise_append.1 hordered).2.1

theorem closed (h : c.StandsIn source) : c.Closed := by
  obtain ⟨before, hscan, -⟩ := h.tokens
  obtain ⟨init, last, hclosed, hlast, -⟩ := (Scanner.scan_scans source).closed
  have hne : c.current :: c.later ≠ [] := List.cons_ne_nil _ _
  refine ⟨(c.current :: c.later).dropLast, (c.current :: c.later).getLast hne, (List.dropLast_concat_getLast hne).symm, ?_⟩
  have hends := congrArg List.getLast? (hscan.symm.trans hclosed)
  rw [List.getLast?_append, List.getLast?_eq_some_getLast hne, List.getLast?_concat] at hends
  rwa [Option.some.inj hends]

theorem next (h : c.StandsIn source) (hk : c.current.kind.isEof = false) : c.Reads [c.current] c.next := by
  refine .next fun hlater => ?_
  obtain ⟨before, last, hsplit, hlast⟩ := h.closed
  rw [hlater] at hsplit
  cases before with
  | nil =>
    cases hsplit
    rw [hk] at hlast
    cases hlast
  | cons _ before => simp at hsplit

/-! ## Order -/

theorem last_le (h : c.StandsIn source) : c.last.stop ≤ c.current.span.start := by
  obtain ⟨before, hscan, hlast⟩ := h.tokens
  have hordered := (Scanner.scan_scans source).ordered
  rw [hscan] at hordered
  cases hb : before.getLast? with
  | none =>
    rw [hlast, hb]
    exact Nat.zero_le _
  | some t =>
    rw [hlast, hb]
    exact (List.pairwise_append.1 hordered).2.2 t (List.mem_of_getLast? hb) _ (List.mem_cons_self ..)

theorem start_le (h : c.StandsIn source) (hr : c.Reads read m) : c.current.span.start ≤ m.current.span.start := by
  have hordered := h.ordered
  have hle := Scanner.span_le h.current_mem
  cases read with
  | nil =>
    obtain ⟨hcurrent, -⟩ := List.cons.inj hr.tokens
    rw [hcurrent]
  | cons t rest =>
    obtain ⟨hcurrent, hlater⟩ := List.cons.inj hr.tokens
    have := (List.pairwise_cons.1 hordered).1 m.current (by rw [hlater]; simp)
    omega

theorem first_le_last (h : c.StandsIn source) (hr : c.Reads read m) (hne : read ≠ []) :
    c.current.span.start ≤ m.last.start ∧ c.current.span.stop ≤ m.last.stop := by
  obtain ⟨rest, rfl⟩ := hr.head hne
  obtain ⟨t, ht, -, hlast⟩ := hr.last_mem hne
  rw [hlast]
  have hle := Scanner.span_le h.current_mem
  rcases List.mem_cons.1 ht with rfl | ht
  · exact ⟨Nat.le_refl _, Nat.le_refl _⟩
  · have hlater := (List.cons.inj hr.tokens).2
    have hmem : t ∈ c.later := by
      rw [hlater]
      exact List.mem_append_left _ ht
    have hstart := (List.pairwise_cons.1 h.ordered).1 t hmem
    have hle' := Scanner.span_le (h.mem t (List.mem_cons_of_mem _ hmem))
    omega

theorem last_le_last (h : c.StandsIn source) (hr : c.Reads read m) : c.last.stop ≤ m.last.stop := by
  by_cases hne : read = []
  · subst hne
    rw [hr.last]
    exact Nat.le_refl _
  · have := h.last_le
    have := Scanner.span_le h.current_mem
    have := (h.first_le_last hr hne).2
    omega

end StandsIn

end Cursor

end ScriptEngine
