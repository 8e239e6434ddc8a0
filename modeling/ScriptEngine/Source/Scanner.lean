/-
Text to tokens. `Scanner.next` skips blanks and comments, then reads the
longest lexeme; `scan` repeats it up to the end of the text. Positions count
bytes. Text that is no token becomes an invalid token, and scanning goes on
behind it.
-/
import ScriptEngine.Source.Token
import ScriptEngine.Text.Identifier
import ScriptEngine.Number.Read

namespace ScriptEngine.Scanner

/-- Characters still to be read and the byte offset of the first of them. -/
structure Place where
  rest : List Char
  offset : Nat

def byteSize (cs : List Char) : Nat := cs.foldl (fun n c => n + c.utf8Size) 0

/-- The place behind the next `n` characters. -/
def Place.drop (p : Place) (n : Nat) : Place :=
  ⟨p.rest.drop n, p.offset + byteSize (p.rest.take n)⟩

/-! ## Blanks and comments -/

/-- Where a gap between two tokens stands: among blanks, in a line comment, or
in a block comment that began at an offset. -/
inductive GapMode
  | blank
  | line
  | block (start : Nat) (afterStar : Bool)

/-- The end of a gap. A block comment that never closes is reported by its start. -/
structure Gap where
  place : Place
  newline : Bool
  openComment : Option Nat

/-- Skips a gap. A line comment ends before a line feed or carriage return, and a
block comment counts as a line break when it holds one of these two. -/
def skipGap : GapMode → List Char → Nat → Bool → Gap
  | .block start _, [], offset, newline => ⟨⟨[], offset⟩, newline, some start⟩
  | _, [], offset, newline => ⟨⟨[], offset⟩, newline, none⟩
  | .blank, '/' :: '/' :: cs, offset, newline => skipGap .line cs (offset + 2) newline
  | .blank, '/' :: '*' :: cs, offset, newline => skipGap (.block offset false) cs (offset + 2) newline
  | .blank, c :: cs, offset, newline =>
    if Text.isLineTerminator c then skipGap .blank cs (offset + c.utf8Size) true
    else if Text.isBlank c then skipGap .blank cs (offset + c.utf8Size) newline
    else ⟨⟨c :: cs, offset⟩, newline, none⟩
  | .line, c :: cs, offset, newline =>
    if c == '\n' || c == '\r' then skipGap .blank cs (offset + c.utf8Size) true
    else skipGap .line cs (offset + c.utf8Size) newline
  | .block start afterStar, c :: cs, offset, newline =>
    let newline := newline || c == '\n' || c == '\r'
    if afterStar && c == '/' then skipGap .blank cs (offset + c.utf8Size) newline
    else skipGap (.block start (c == '*')) cs (offset + c.utf8Size) newline

/-! ## Lexemes -/

structure Lexeme where
  kind : TokenKind
  after : Place

def hexValue (cs : List Char) : Option Nat :=
  if cs.all Number.isHexDigit then some (Number.digitsValue 16 cs) else none

/-- The character with a code point, unless it is a surrogate or too large. -/
def charOf? (n : Nat) : Option Char :=
  if h : n.isValidChar then some (Char.ofNatAux n h) else none

/-- How many characters a malformed escape of `n` digits takes up: up to and
including the first that is no digit. -/
def escapeLength (n : Nat) (cs : List Char) : Nat :=
  min n (((cs.take n).takeWhile Number.isHexDigit).length + 1)

/-- The character of an escape of one letter. -/
def letterEscape (c : Char) : Char :=
  if c == 'n' then '\n'
  else if c == 'r' then '\r'
  else if c == 't' then '\t'
  else if c == 'b' then '\x08'
  else if c == 'f' then '\x0c'
  else if c == 'v' then '\x0b'
  else if c == '0' then '\x00'
  else c

/-- The inside of a string literal up to its closing quote. `acc` holds the
characters read so far, last first. -/
def scanString (quote : Char) : List Char → Nat → List Char → Lexeme
  | [], offset, _ => ⟨.invalid .unterminatedString, ⟨[], offset⟩⟩
  | '\n' :: cs, offset, _ => ⟨.invalid .unterminatedString, ⟨cs, offset + 1⟩⟩
  | '\\' :: cs, offset, acc =>
    match cs with
    | [] => ⟨.invalid .unterminatedString, ⟨[], offset + 1⟩⟩
    | 'x' :: a :: b :: cs =>
      match (hexValue [a, b]).bind charOf? with
      | some c => scanString quote cs (offset + 4) (c :: acc)
      | none => ⟨.invalid .malformedByteEscape,
          (Place.mk (a :: b :: cs) (offset + 2)).drop (escapeLength 2 (a :: b :: cs))⟩
    | 'x' :: cs => ⟨.invalid .malformedByteEscape,
          (Place.mk cs (offset + 2)).drop (escapeLength 2 cs)⟩
    | 'u' :: a :: b :: c :: d :: cs =>
      match (hexValue [a, b, c, d]).bind charOf? with
      | some e => scanString quote cs (offset + 6) (e :: acc)
      | none => ⟨.invalid .malformedUnitEscape,
          (Place.mk (a :: b :: c :: d :: cs) (offset + 2)).drop
            (escapeLength 4 (a :: b :: c :: d :: cs))⟩
    | 'u' :: cs => ⟨.invalid .malformedUnitEscape,
          (Place.mk cs (offset + 2)).drop (escapeLength 4 cs)⟩
    | '\n' :: cs => scanString quote cs (offset + 2) acc
    | '\r' :: '\n' :: cs => scanString quote cs (offset + 3) acc
    | '\r' :: cs => scanString quote cs (offset + 2) acc
    | c :: cs => scanString quote cs (offset + 1 + c.utf8Size) (letterEscape c :: acc)
  | c :: cs, offset, acc =>
    if c == quote then ⟨.string (String.ofList acc.reverse), ⟨cs, offset + c.utf8Size⟩⟩
    else scanString quote cs (offset + c.utf8Size) (c :: acc)

/-- A hexadecimal literal behind its `0x`. -/
def scanHex (p : Place) : Lexeme :=
  let digits := p.rest.takeWhile Number.isHexDigit
  let kind :=
    match Number.unsigned? 16 (Nat.pow 2 64) digits with
    | some n => .number (Number.ofWord n)
    | none => .invalid (.malformedHex (String.ofList digits))
  ⟨kind, p.drop digits.length⟩

/-- The part of a decimal literal before its exponent. -/
def scanMantissa (cs : List Char) : List Char :=
  let whole := cs.takeWhile Number.isDigit
  match cs.dropWhile Number.isDigit with
  | '.' :: ds => whole ++ '.' :: ds.takeWhile Number.isDigit
  | _ => whole

/-- The exponent of a decimal literal, if one follows; its digits may be missing. -/
def scanExponent : List Char → List Char
  | mark :: cs =>
    if mark == 'e' || mark == 'E' then
      match cs with
      | '+' :: ds => 'e' :: '+' :: ds.takeWhile Number.isDigit
      | '-' :: ds => 'e' :: '-' :: ds.takeWhile Number.isDigit
      | ds => 'e' :: ds.takeWhile Number.isDigit
    else []
  | [] => []

/-- A decimal literal. No identifier may follow it directly. -/
def scanDecimal (p : Place) : Lexeme :=
  let mantissa := scanMantissa p.rest
  let text := mantissa ++ scanExponent (p.rest.drop mantissa.length)
  let after := p.drop text.length
  let kind :=
    if (after.rest.head?.map Text.isIdentifierStart).getD false then .invalid .identifierAfterNumber
    else
      match Number.decimal? text with
      | some value => .number value
      | none => .invalid (.malformedNumber (String.ofList text))
  ⟨kind, after⟩

/-- A name or a reserved word. -/
def scanName (p : Place) : Lexeme :=
  let cs := p.rest.takeWhile Text.isIdentifierPart
  let name := String.ofList cs
  let kind :=
    match ReservedWord.ofText? name with
    | some w => .word w
    | none => .identifier name
  ⟨kind, p.drop cs.length⟩

/-- A number starts with a digit, or with a point and a digit. -/
def startsNumber : List Char → Bool
  | '.' :: c :: _ => Number.isDigit c
  | c :: _ => Number.isDigit c
  | [] => false

/-- The lexeme at a place that is neither at the end nor at a blank. -/
def lexeme (p : Place) : Lexeme :=
  match p.rest with
  | [] => ⟨.eof, p⟩
  | c :: cs =>
    if startsNumber p.rest then
      match p.rest with
      | '0' :: 'x' :: _ | '0' :: 'X' :: _ => scanHex (p.drop 2)
      | _ => scanDecimal p
    else
      match Punctuator.ofStart? p.rest with
      | some (mark, n) => ⟨.mark mark, p.drop n⟩
      | none =>
        if c == '"' || c == '\'' then scanString c cs (p.offset + 1) []
        else if Text.isIdentifierStart c then scanName p
        else ⟨.invalid (.unexpectedCharacter c), p.drop 1⟩

/-- The next token and the place behind it. -/
def next (p : Place) : Token × Place :=
  let gap := skipGap .blank p.rest p.offset false
  match gap.openComment with
  | some start =>
    (⟨.invalid .unterminatedComment, ⟨start, gap.place.offset⟩, gap.newline⟩, gap.place)
  | none =>
    let l := lexeme gap.place
    (⟨l.kind, ⟨gap.place.offset, l.after.offset⟩, gap.newline⟩, l.after)

/-! ## Progress -/

theorem Place.drop_rest (p : Place) (n : Nat) : (p.drop n).rest = p.rest.drop n := rfl

theorem Place.drop_length_lt {p : Place} {n : Nat} (hn : 0 < n) (hp : p.rest ≠ []) :
    (p.drop n).rest.length < p.rest.length := by
  have := List.length_pos_iff.mpr hp
  rw [Place.drop_rest, List.length_drop]; omega

theorem skipGap_length (mode cs offset newline) :
    (skipGap mode cs offset newline).place.rest.length ≤ cs.length := by
  fun_induction skipGap mode cs offset newline <;> simp_all <;> omega

theorem skipGap_open (mode cs offset newline start)
    (h : (skipGap mode cs offset newline).openComment = some start) :
    (skipGap mode cs offset newline).place.rest = [] := by
  fun_induction skipGap mode cs offset newline <;> simp_all

theorem scanString_length (quote cs offset acc) :
    (scanString quote cs offset acc).after.rest.length ≤ cs.length := by
  fun_induction scanString quote cs offset acc <;> simp_all [Place.drop_rest] <;> omega

theorem ofStart?_pos {cs p n} (h : Punctuator.ofStart? cs = some (p, n)) : 0 < n := by
  unfold Punctuator.ofStart? at h
  split at h <;> simp at h <;> omega

theorem scanMantissa_ne_nil {cs : List Char} (h : startsNumber cs = true) : scanMantissa cs ≠ [] := by
  unfold scanMantissa
  match cs, h with
  | '.' :: c :: ds, h => simp [show Number.isDigit '.' = false from rfl]
  | [c], h =>
    by_cases hc : c = '.'
    · subst hc; simp [startsNumber, show Number.isDigit '.' = false from rfl] at h
    · have : Number.isDigit c = true := by simpa [startsNumber] using h
      simp [this]
  | c :: d :: ds, h =>
    by_cases hc : c = '.'
    · subst hc; simp [show Number.isDigit '.' = false from rfl]
    · have : Number.isDigit c = true := by simpa [startsNumber, hc] using h
      simp only [List.takeWhile_cons, this, ↓reduceIte]
      split <;> simp

theorem lexeme_length {p : Place} (h : p.rest ≠ []) :
    (lexeme p).after.rest.length < p.rest.length := by
  unfold lexeme
  split
  · contradiction
  · rename_i c cs hp
    split
    · rename_i hn
      split
      · rename_i ds hd
        simp only [scanHex, Place.drop_rest, List.length_drop, hd, List.length_cons]; omega
      · rename_i ds hd
        simp only [scanHex, Place.drop_rest, List.length_drop, hd, List.length_cons]; omega
      · apply Place.drop_length_lt _ h
        have := List.length_pos_iff.mpr (scanMantissa_ne_nil hn)
        simp only [List.length_append]; omega
    · split
      · rename_i mark n hm
        exact Place.drop_length_lt (ofStart?_pos hm) h
      · split
        · have := scanString_length c cs (p.offset + 1) []
          rw [hp, List.length_cons]; omega
        · split
          · rename_i hs
            apply Place.drop_length_lt _ h
            simp [hp, Text.isIdentifierPart_of_start hs]
          · exact Place.drop_length_lt (by omega) h

theorem lexeme_isEof {p : Place} (h : p.rest = []) : (lexeme p).kind = .eof := by
  unfold lexeme; split <;> simp_all

/-- Every token but the last takes at least one character. -/
theorem next_length {p : Place} (h : (next p).1.kind.isEof = false) :
    (next p).2.rest.length < p.rest.length := by
  have hle := skipGap_length .blank p.rest p.offset false
  unfold next at h ⊢
  simp only at h ⊢
  split
  · rename_i start hopen
    have hnil := skipGap_open _ _ _ _ _ hopen
    simp only [hnil, List.length_nil]
    refine List.length_pos_iff.mpr fun hp => ?_
    rw [hp] at hopen
    simp [skipGap] at hopen
  · rename_i hclosed
    simp only [hclosed] at h
    by_cases hnil : (skipGap .blank p.rest p.offset false).place.rest = []
    · rw [lexeme_isEof hnil] at h; simp [TokenKind.isEof] at h
    · exact Nat.lt_of_lt_of_le (lexeme_length hnil) hle

/-- The tokens from a place on, added to those before it. -/
def scanFrom (p : Place) (before : Array Token) : Array Token :=
  match hn : next p with
  | (t, q) =>
    if ht : t.kind.isEof = true then before.push t
    else
      have shorter : q.rest.length < p.rest.length := by
        have hlt := next_length (p := p)
        rw [hn] at hlt
        exact hlt (by simpa using ht)
      scanFrom q (before.push t)
termination_by p.rest.length

/-- All tokens of a text; the last one is the end of input. -/
def scan (source : String) : List Token :=
  (scanFrom ⟨source.toList, 0⟩ #[]).toList

end ScriptEngine.Scanner
