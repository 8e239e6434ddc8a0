/-
A position in a row of tokens, and the small steps of reading from it.
-/
import ScriptEngine.Operator.Pending
import ScriptEngine.Source.Scanner

namespace ScriptEngine

/-- The token to be read next, those behind it, and the span of the token read last. -/
structure Cursor where
  current : Token
  later : List Token
  last : Span

namespace Cursor

/-- At the first of a row of tokens, which is closed by an end of input. -/
def ofTokens : List Token → Cursor
  | t :: ts => ⟨t, ts, ⟨0, 0⟩⟩
  | [] => ⟨⟨.eof, ⟨0, 0⟩, false⟩, [], ⟨0, 0⟩⟩

/-- The cursor behind the current token. The last token stays current. -/
def next (c : Cursor) : Cursor :=
  match c.later with
  | t :: ts => ⟨t, ts, c.current.span⟩
  | [] => { c with last := c.current.span }

/-- Tokens that are still to be read. -/
def remaining (c : Cursor) : Nat := c.later.length

/-- A bound on the nesting of the grammar functions over these tokens: at most
nine of them are active at one token. -/
def fuel (c : Cursor) : Nat := 10 * (c.remaining + 1)

end Cursor

/-- Reading from a cursor. -/
abbrev Parse := StateT Cursor (Except SyntaxFault)

namespace Parse

def token : Parse Token := do return (← get).current

def kind : Parse TokenKind := do return (← get).current.kind

def advance : Parse Unit := modify Cursor.next

def atMark (p : Punctuator) : Parse Bool := do return (← kind).isMark p

def atWord (w : ReservedWord) : Parse Bool := do return (← kind).isWord w

def atEnd : Parse Bool := do return (← kind).isEof

def expectMark (p : Punctuator) : Parse Unit := do
  if ← atMark p then advance
  else
    let t ← token
    throw (.expectedToken (.mark p) t.kind t.span)

def expectWord (w : ReservedWord) : Parse Unit := do
  if ← atWord w then advance
  else
    let t ← token
    throw (.expectedToken (.word w) t.kind t.span)

/-- The end of a statement: a semicolon, or nothing before a closing brace, the
end of input or a line break. -/
def semicolon : Parse Unit := do
  let t ← token
  if t.kind.isMark .semicolon then advance
  else if t.kind.isMark .rightBrace || t.kind.isEof || t.newlineBefore then return
  else throw (.expectedSemicolon t.kind t.span)

def identifier : Parse Identifier := do
  let t ← token
  match t.kind with
  | .identifier name => do
    advance
    return ⟨name, t.span⟩
  | _ => throw (.expectedIdentifier t.kind t.span)

/-- A name behind a point or in front of a colon; it may be a reserved word. -/
def propertyName : Parse Identifier := do
  let t ← token
  match t.kind with
  | .word w => do
    advance
    return ⟨w.text, t.span⟩
  | _ => identifier

/-- An operator applied to its operands. -/
def build (op : Operator) (operands : List Expr) : Parse Expr :=
  liftM (op.build operands)

/-- A statement without labels from `start` to the token read last. -/
def close (start : Span) (kind : StmtKind) : Parse Stmt := do
  return ⟨[], start.cover (← get).last, kind⟩

end Parse

end ScriptEngine
