/-
What stands between tokens: blanks and comments, each of them complete. A
skipped gap is a row of such pieces behind which neither a blank nor a comment
begins, and it counts as a line break when one of its pieces does. Main
statements: `skipGap_closed` and `skipGap_unclosed`.
-/
import ScriptEngine.Proofs.Source.Place

namespace ScriptEngine.Scanner

variable {c : Char} {cs : List Char}

/-! ## Pieces -/

/-- A blank, or a comment with what stands behind its opening mark. The line break behind a line
comment is not part of it. -/
inductive Piece
  | blank (c : Char)
  | line (body : List Char)
  | block (body : List Char)

def endsLine (c : Char) : Bool := c == '\n' || c == '\r'

namespace Piece

def text : Piece → List Char
  | .blank c => [c]
  | .line body => '/' :: '/' :: body
  | .block body => '/' :: '*' :: (body ++ ['*', '/'])

/-- In front of `rest` the piece is a blank or a whole comment: a line comment goes on up to the
end of its line, a block comment up to the first closing mark. -/
def Complete : Piece → List Char → Prop
  | .blank c, _ => Text.isBlank c = true
  | .line body, rest => (∀ c ∈ body, endsLine c = false) ∧ ∀ c ∈ rest.head?, endsLine c = true
  | .block body, _ => ¬ ['*', '/'] <:+: body

/-- The scanner takes the piece for a line break: of the four line terminators, it counts all
among blanks and two inside comments. -/
def breaksLine : Piece → Bool
  | .blank c => Text.isLineTerminator c
  | .line body => body.any endsLine
  | .block body => body.any endsLine

end Piece

def gapText (ps : List Piece) : List Char := ps.flatMap Piece.text

@[simp] theorem gapText_nil : gapText [] = [] := rfl

@[simp] theorem gapText_cons (p : Piece) (ps : List Piece) : gapText (p :: ps) = p.text ++ gapText ps := rfl

/-- Pieces that are complete in front of what follows them, up to `rest`. -/
def IsGap : List Piece → List Char → Prop
  | [], _ => True
  | p :: ps, rest => p.Complete (gapText ps ++ rest) ∧ IsGap ps rest

def startsGap : List Char → Bool
  | '/' :: '/' :: _ => true
  | '/' :: '*' :: _ => true
  | c :: _ => Text.isBlank c
  | [] => false

theorem startsGap_cons (hline : ∀ ds, c = '/' → cs = '/' :: ds → False)
    (hblock : ∀ ds, c = '/' → cs = '*' :: ds → False) :
    startsGap (c :: cs) = Text.isBlank c := by
  unfold startsGap
  split
  case h_1 h =>
    cases h
    exact (hline _ rfl rfl).elim
  case h_2 h =>
    cases h
    exact (hblock _ rfl rfl).elim
  case h_3 h =>
    cases h
    rfl
  case h_4 h => cases h

/-! ## Skipping -/

/-- A star that a block comment has seen and that may be the first half of its closing mark. -/
def pendingStar : Bool → List Char
  | true => ['*']
  | false => []

/-- The text `w` is what is left of the open comment, if there is one, in front of `rest`. -/
def GapMode.Ends : GapMode → List Char → List Char → Prop
  | .blank, w, _ => w = []
  | .line, w, rest => (∀ c ∈ w, endsLine c = false) ∧ ∀ c ∈ rest.head?, endsLine c = true
  | .block _ afterStar, w, _ => ∃ body, pendingStar afterStar ++ w = body ++ ['*', '/'] ∧ ¬ ['*', '/'] <:+: body

theorem closing_infix_cons : ['*', '/'] <:+: c :: cs ↔ (c = '*' ∧ ['/'] <+: cs) ∨ ['*', '/'] <:+: cs := by
  rw [List.infix_cons_iff, List.cons_prefix_cons, eq_comm]

theorem GapMode.Ends.block_cons {start : Nat} {afterStar : Bool} {w rest : List Char}
    (hc : ¬ (afterStar && c == '/') = true) (h : GapMode.Ends (.block start (c == '*')) w rest) :
    GapMode.Ends (.block start afterStar) (c :: w) rest := by
  obtain ⟨body, hbody, hopen⟩ := h
  by_cases hstar : c = '*'
  · -- The star is the head of the body or of the closing mark; either way no slash follows the one before it.
    subst hstar
    refine ⟨pendingStar afterStar ++ body, ?_, ?_⟩
    · simpa [pendingStar] using hbody
    · cases afterStar with
      | false => exact hopen
      | true =>
        change ¬ ['*', '/'] <:+: '*' :: body
        rw [closing_infix_cons]
        rintro (⟨-, hslash⟩ | hinside)
        · cases body with
          | nil => simp at hslash
          | cons d ds =>
            simp only [beq_self_eq_true, pendingStar, List.cons_append, List.cons.injEq] at hbody
            simp [← hbody.1] at hslash
        · exact hopen hinside
  · have hne : (c == '*') = false := by simpa using hstar
    have hword : w = body ++ ['*', '/'] := by simpa [hne, pendingStar] using hbody
    refine ⟨pendingStar afterStar ++ c :: body, by simp [hword], ?_⟩
    have hcons : ¬ ['*', '/'] <:+: c :: body := by
      rw [closing_infix_cons]
      rintro (⟨rfl, -⟩ | hinside)
      · exact hstar rfl
      · exact hopen hinside
    cases afterStar with
    | false => exact hcons
    | true =>
      change ¬ ['*', '/'] <:+: '*' :: c :: body
      rw [closing_infix_cons]
      rintro (⟨-, hslash⟩ | hinside)
      · simp only [List.cons_prefix_cons, List.nil_prefix, and_true] at hslash
        simp [← hslash] at hc
      · exact hcons hinside

/-- From one place to another lie the rest of the open comment and a row of pieces. -/
structure Skips (mode : GapMode) (p : Place) (w : List Char) (ps : List Piece) (q : Place) : Prop where
  reads : p.Reads (w ++ gapText ps) q
  ends : mode.Ends w (gapText ps ++ q.rest)
  gap : IsGap ps q.rest

namespace Skips

variable {cs w : List Char} {ps : List Piece} {q : Place} {offset : Nat}
variable {c : Char} {start : Nat}

theorem refl (p : Place) : Skips .blank p [] [] p := ⟨.refl p, rfl, trivial⟩

theorem blank {mode : GapMode} (hc : Text.isBlank c = true) (hmode : ∀ rest, mode.Ends [] (c :: rest))
    (h : Skips .blank ⟨cs, offset + c.utf8Size⟩ w ps q) :
    Skips mode ⟨c :: cs, offset⟩ [] (.blank c :: ps) q := by
  obtain ⟨hr, rfl, hg⟩ := h
  exact ⟨hr.cons, hmode _, hc, hg⟩

theorem line_comment (h : Skips .line ⟨cs, offset + 2⟩ w ps q) :
    Skips .blank ⟨'/' :: '/' :: cs, offset⟩ [] (.line w :: ps) q := by
  obtain ⟨hr, he, hg⟩ := h
  refine ⟨?_, rfl, he, hg⟩
  simp only [gapText_cons, Piece.text, List.nil_append, List.cons_append]
  exact hr.cons.cons

theorem line_cons (hc : endsLine c = false) (h : Skips .line ⟨cs, offset + c.utf8Size⟩ w ps q) :
    Skips .line ⟨c :: cs, offset⟩ (c :: w) ps q := by
  obtain ⟨hr, ⟨hw, hrest⟩, hg⟩ := h
  exact ⟨hr.cons, ⟨List.forall_mem_cons.2 ⟨hc, hw⟩, hrest⟩, hg⟩

theorem block_comment (h : Skips (.block start false) ⟨cs, offset + 2⟩ w ps q) :
    ∃ body, w = body ++ ['*', '/'] ∧ Skips .blank ⟨'/' :: '*' :: cs, offset⟩ [] (.block body :: ps) q := by
  obtain ⟨hr, ⟨body, rfl, hbody⟩, hg⟩ := h
  refine ⟨body, rfl, ?_, rfl, hbody, hg⟩
  simp only [gapText_cons, Piece.text, List.nil_append, List.cons_append]
  exact hr.cons.cons

theorem block_cons {afterStar : Bool} (hc : ¬ (afterStar && c == '/') = true)
    (h : Skips (.block start (c == '*')) ⟨cs, offset + c.utf8Size⟩ w ps q) :
    Skips (.block start afterStar) ⟨c :: cs, offset⟩ (c :: w) ps q :=
  ⟨h.reads.cons, h.ends.block_cons hc, h.gap⟩

theorem block_close (h : Skips .blank ⟨cs, offset + 1⟩ w ps q) :
    Skips (.block start true) ⟨'/' :: cs, offset⟩ ['/'] ps q := by
  obtain ⟨hr, rfl, hg⟩ := h
  exact ⟨hr.cons, ⟨[], rfl, by simp⟩, hg⟩

end Skips

theorem isBlank_of_endsLine (h : endsLine c = true) : Text.isBlank c = true := by
  simp only [endsLine, Bool.or_eq_true, beq_iff_eq] at h
  rcases h with rfl | rfl <;> decide

theorem isLineTerminator_of_endsLine (h : endsLine c = true) : Text.isLineTerminator c = true := by
  simp only [endsLine, Bool.or_eq_true, beq_iff_eq] at h
  rcases h with rfl | rfl <;> decide

theorem skipGap_closed {mode : GapMode} {offset : Nat} {newline : Bool}
    (h : (skipGap mode cs offset newline).openComment = none) :
    ∃ w ps, Skips mode ⟨cs, offset⟩ w ps (skipGap mode cs offset newline).place ∧
      (skipGap mode cs offset newline).newline = (newline || w.any endsLine || ps.any Piece.breaksLine) ∧
      startsGap (skipGap mode cs offset newline).place.rest = false := by
  fun_induction skipGap mode cs offset newline with
  | case1 => cases h
  | case2 mode offset newline hmode =>
    refine ⟨[], [], ⟨.refl _, ?_, trivial⟩, by simp, rfl⟩
    cases mode with
    | blank => rfl
    | line => simp [GapMode.Ends]
    | block start afterStar => exact absurd rfl (hmode start afterStar)
  | case3 cs offset newline ih =>
    obtain ⟨w, ps, hs, hn, hstop⟩ := ih h
    exact ⟨[], _, hs.line_comment, by simp [hn, Piece.breaksLine, Bool.or_assoc], hstop⟩
  | case4 cs offset newline ih =>
    obtain ⟨w, ps, hs, hn, hstop⟩ := ih h
    obtain ⟨body, rfl, hs'⟩ := hs.block_comment
    refine ⟨[], _, hs', ?_, hstop⟩
    simp [hn, Piece.breaksLine, Bool.or_assoc, show endsLine '*' = false from rfl, show endsLine '/' = false from rfl]
  | case5 c cs offset newline hline hblock hc ih =>
    obtain ⟨w, ps, hs, hn, hstop⟩ := ih h
    refine ⟨[], _, hs.blank (Text.isBlank_of_isLineTerminator hc) fun _ => rfl, ?_, hstop⟩
    simp [hn, Piece.breaksLine, hc]
  | case6 c cs offset newline hline hblock hc hb ih =>
    obtain ⟨w, ps, hs, hn, hstop⟩ := ih h
    have hw : w = [] := hs.ends
    refine ⟨[], _, hs.blank hb fun _ => rfl, ?_, hstop⟩
    simp [hn, hw, Piece.breaksLine, hc]
  | case7 c cs offset newline hline hblock hc hb =>
    refine ⟨[], [], .refl _, by simp, ?_⟩
    rw [startsGap_cons hline hblock, Bool.eq_false_iff.2 hb]
  | case8 c cs offset newline hc ih =>
    obtain ⟨w, ps, hs, hn, hstop⟩ := ih h
    replace hc : endsLine c = true := hc
    refine ⟨[], _, hs.blank (isBlank_of_endsLine hc) fun _ => ⟨by simp, by simpa using hc⟩, ?_, hstop⟩
    simp [hn, Piece.breaksLine, isLineTerminator_of_endsLine hc]
  | case9 c cs offset newline hc ih =>
    obtain ⟨w, ps, hs, hn, hstop⟩ := ih h
    replace hc : endsLine c = false := Bool.eq_false_iff.2 hc
    exact ⟨_, ps, hs.line_cons hc, by simp [hn, hc], hstop⟩
  | case10 start afterStar c cs offset newline before hc ih =>
    obtain ⟨w, ps, hs, hn, hstop⟩ := ih h
    have hw : w = [] := hs.ends
    simp only [Bool.and_eq_true, beq_iff_eq] at hc
    obtain ⟨rfl, rfl⟩ := hc
    exact ⟨_, ps, hs.block_close, hn.trans (by simp [hw, before, show endsLine '/' = false from rfl]), hstop⟩
  | case11 start afterStar c cs offset newline before hc ih =>
    obtain ⟨w, ps, hs, hn, hstop⟩ := ih h
    exact ⟨_, ps, hs.block_cons hc, hn.trans (by simp [before, endsLine, Bool.or_assoc]), hstop⟩

theorem skipGap_unclosed {mode : GapMode} {offset : Nat} {newline : Bool} {start : Nat}
    (h : (skipGap mode cs offset newline).openComment = some start) :
    (∃ afterStar, mode = .block start afterStar) ∨
      ∃ w ps body, Skips mode ⟨cs, offset⟩ w ps ⟨'/' :: '*' :: body, start⟩ := by
  fun_induction skipGap mode cs offset newline with
  | case1 start' afterStar => exact .inl ⟨afterStar, by rw [Option.some.inj h]⟩
  | case2 => cases h
  | case3 cs offset newline ih =>
    obtain ⟨afterStar, h⟩ | ⟨w, ps, body, hs⟩ := ih h
    · cases h
    · exact .inr ⟨[], _, body, hs.line_comment⟩
  | case4 cs offset newline ih =>
    obtain ⟨afterStar, h⟩ | ⟨w, ps, body, hs⟩ := ih h
    · cases h
      exact .inr ⟨[], [], cs, .refl _⟩
    · obtain ⟨_, -, hs⟩ := hs.block_comment
      exact .inr ⟨[], _, body, hs⟩
  | case5 c cs offset newline hline hblock hc ih =>
    obtain ⟨afterStar, h⟩ | ⟨w, ps, body, hs⟩ := ih h
    · cases h
    · exact .inr ⟨[], _, body, hs.blank (Text.isBlank_of_isLineTerminator hc) fun _ => rfl⟩
  | case6 c cs offset newline hline hblock hc hb ih =>
    obtain ⟨afterStar, h⟩ | ⟨w, ps, body, hs⟩ := ih h
    · cases h
    · exact .inr ⟨[], _, body, hs.blank hb fun _ => rfl⟩
  | case7 => cases h
  | case8 c cs offset newline hc ih =>
    obtain ⟨afterStar, h⟩ | ⟨w, ps, body, hs⟩ := ih h
    · cases h
    · replace hc : endsLine c = true := hc
      exact .inr ⟨[], _, body, hs.blank (isBlank_of_endsLine hc) fun _ => ⟨by simp, by simpa using hc⟩⟩
  | case9 c cs offset newline hc ih =>
    obtain ⟨afterStar, h⟩ | ⟨w, ps, body, hs⟩ := ih h
    · cases h
    · exact .inr ⟨_, ps, body, hs.line_cons (Bool.eq_false_iff.2 hc)⟩
  | case10 start' afterStar c cs offset newline before hc ih =>
    obtain ⟨afterStar, h⟩ | ⟨w, ps, body, hs⟩ := ih h
    · cases h
    · simp only [Bool.and_eq_true, beq_iff_eq] at hc
      obtain ⟨rfl, rfl⟩ := hc
      exact .inr ⟨_, ps, body, hs.block_close⟩
  | case11 start' afterStar c cs offset newline before hc ih =>
    obtain ⟨afterStar', h⟩ | ⟨w, ps, body, hs⟩ := ih h
    · cases h
      exact .inl ⟨afterStar, rfl⟩
    · exact .inr ⟨_, ps, body, hs.block_cons hc⟩

theorem skipGap_reads (mode : GapMode) (cs : List Char) (offset : Nat) (newline : Bool) :
    ∃ w, Place.Reads ⟨cs, offset⟩ w (skipGap mode cs offset newline).place := by
  fun_induction skipGap mode cs offset newline with
  | case1 | case2 | case7 => exact ⟨[], .refl _⟩
  | case3 _ _ _ ih | case4 _ _ _ ih =>
    obtain ⟨w, hw⟩ := ih
    exact ⟨_, hw.cons.cons⟩
  | case5 _ _ _ _ _ _ _ ih | case6 _ _ _ _ _ _ _ _ ih | case8 _ _ _ _ _ ih | case9 _ _ _ _ _ ih
  | case10 _ _ _ _ _ _ _ _ ih | case11 _ _ _ _ _ _ _ _ ih =>
    obtain ⟨w, hw⟩ := ih
    exact ⟨_, hw.cons⟩

end ScriptEngine.Scanner
