/-
Tokens: reserved words, punctuators, literals, names, and the faults a
scanner can meet.
-/
import ScriptEngine.Source.Span
import ScriptEngine.Number.Layout
import ScriptEngine.Text.Quoted

namespace ScriptEngine

/-- Words that are not identifiers. -/
inductive ReservedWord
  | breakWord | caseWord | catchWord | constWord | continueWord | debuggerWord | defaultWord
  | deleteWord | doWord | elseWord | falseWord | finallyWord | forWord | functionWord | ifWord
  | inWord | instanceofWord | letWord | newWord | nullWord | returnWord | switchWord | thisWord
  | throwWord | trueWord | tryWord | typeofWord | varWord | voidWord | whileWord | withWord
  deriving Repr, DecidableEq

namespace ReservedWord

def all : List ReservedWord := [
  .breakWord, .caseWord, .catchWord, .constWord, .continueWord, .debuggerWord, .defaultWord,
  .deleteWord, .doWord, .elseWord, .falseWord, .finallyWord, .forWord, .functionWord, .ifWord,
  .inWord, .instanceofWord, .letWord, .newWord, .nullWord, .returnWord, .switchWord, .thisWord,
  .throwWord, .trueWord, .tryWord, .typeofWord, .varWord, .voidWord, .whileWord, .withWord]

def text : ReservedWord → String
  | .breakWord => "break"
  | .caseWord => "case"
  | .catchWord => "catch"
  | .constWord => "const"
  | .continueWord => "continue"
  | .debuggerWord => "debugger"
  | .defaultWord => "default"
  | .deleteWord => "delete"
  | .doWord => "do"
  | .elseWord => "else"
  | .falseWord => "false"
  | .finallyWord => "finally"
  | .forWord => "for"
  | .functionWord => "function"
  | .ifWord => "if"
  | .inWord => "in"
  | .instanceofWord => "instanceof"
  | .letWord => "let"
  | .newWord => "new"
  | .nullWord => "null"
  | .returnWord => "return"
  | .switchWord => "switch"
  | .thisWord => "this"
  | .throwWord => "throw"
  | .trueWord => "true"
  | .tryWord => "try"
  | .typeofWord => "typeof"
  | .varWord => "var"
  | .voidWord => "void"
  | .whileWord => "while"
  | .withWord => "with"

/-- The name messages give the word. -/
def name : ReservedWord → String
  | .breakWord => "Break"
  | .caseWord => "Case"
  | .catchWord => "Catch"
  | .constWord => "Const"
  | .continueWord => "Continue"
  | .debuggerWord => "Debugger"
  | .defaultWord => "Default"
  | .deleteWord => "Delete"
  | .doWord => "Do"
  | .elseWord => "Else"
  | .falseWord => "False"
  | .finallyWord => "Finally"
  | .forWord => "For"
  | .functionWord => "Function"
  | .ifWord => "If"
  | .inWord => "In"
  | .instanceofWord => "Instanceof"
  | .letWord => "Let"
  | .newWord => "New"
  | .nullWord => "Null"
  | .returnWord => "Return"
  | .switchWord => "Switch"
  | .thisWord => "This"
  | .throwWord => "Throw"
  | .trueWord => "True"
  | .tryWord => "Try"
  | .typeofWord => "Typeof"
  | .varWord => "Var"
  | .voidWord => "Void"
  | .whileWord => "While"
  | .withWord => "With"

def ofText? (s : String) : Option ReservedWord := all.find? fun w => w.text == s

/-- `true`, `false` and `null` are literals; all other words are keywords. -/
def isLiteral : ReservedWord → Bool
  | .trueWord | .falseWord | .nullWord => true
  | _ => false

end ReservedWord

/-- Marks made of special characters. -/
inductive Punctuator
  | leftBrace | rightBrace | leftParen | rightParen | leftBracket | rightBracket | dot
  | semicolon | comma | lessThan | greaterThan | lessThanEqual | greaterThanEqual | equalEqual
  | notEqual | strictEqual | strictNotEqual | plus | minus | star | slash | percent | plusPlus
  | minusMinus | leftShift | rightShift | unsignedRightShift | ampersand | pipe | caret | bang
  | tilde | ampersandAmpersand | pipePipe | question | colon | equal | plusEqual | minusEqual
  | starEqual | slashEqual | percentEqual | leftShiftEqual | rightShiftEqual
  | unsignedRightShiftEqual | ampersandEqual | pipeEqual | caretEqual
  deriving Repr, DecidableEq

namespace Punctuator

def text : Punctuator → String
  | .leftBrace => "\x7b"
  | .rightBrace => "\x7d"
  | .leftParen => "("
  | .rightParen => ")"
  | .leftBracket => "["
  | .rightBracket => "]"
  | .dot => "."
  | .semicolon => ";"
  | .comma => ","
  | .lessThan => "<"
  | .greaterThan => ">"
  | .lessThanEqual => "<="
  | .greaterThanEqual => ">="
  | .equalEqual => "=="
  | .notEqual => "!="
  | .strictEqual => "==="
  | .strictNotEqual => "!=="
  | .plus => "+"
  | .minus => "-"
  | .star => "*"
  | .slash => "/"
  | .percent => "%"
  | .plusPlus => "++"
  | .minusMinus => "--"
  | .leftShift => "<<"
  | .rightShift => ">>"
  | .unsignedRightShift => ">>>"
  | .ampersand => "&"
  | .pipe => "|"
  | .caret => "^"
  | .bang => "!"
  | .tilde => "~"
  | .ampersandAmpersand => "&&"
  | .pipePipe => "||"
  | .question => "?"
  | .colon => ":"
  | .equal => "="
  | .plusEqual => "+="
  | .minusEqual => "-="
  | .starEqual => "*="
  | .slashEqual => "/="
  | .percentEqual => "%="
  | .leftShiftEqual => "<<="
  | .rightShiftEqual => ">>="
  | .unsignedRightShiftEqual => ">>>="
  | .ampersandEqual => "&="
  | .pipeEqual => "|="
  | .caretEqual => "^="

/-- The name messages give the punctuator. -/
def name : Punctuator → String
  | .leftBrace => "LeftBrace"
  | .rightBrace => "RightBrace"
  | .leftParen => "LeftParen"
  | .rightParen => "RightParen"
  | .leftBracket => "LeftBracket"
  | .rightBracket => "RightBracket"
  | .dot => "Dot"
  | .semicolon => "Semicolon"
  | .comma => "Comma"
  | .lessThan => "LessThan"
  | .greaterThan => "GreaterThan"
  | .lessThanEqual => "LessThanEqual"
  | .greaterThanEqual => "GreaterThanEqual"
  | .equalEqual => "EqualEqual"
  | .notEqual => "NotEqual"
  | .strictEqual => "StrictEqual"
  | .strictNotEqual => "StrictNotEqual"
  | .plus => "Plus"
  | .minus => "Minus"
  | .star => "Star"
  | .slash => "Slash"
  | .percent => "Percent"
  | .plusPlus => "PlusPlus"
  | .minusMinus => "MinusMinus"
  | .leftShift => "LeftShift"
  | .rightShift => "RightShift"
  | .unsignedRightShift => "UnsignedRightShift"
  | .ampersand => "Ampersand"
  | .pipe => "Pipe"
  | .caret => "Caret"
  | .bang => "Bang"
  | .tilde => "Tilde"
  | .ampersandAmpersand => "AmpersandAmpersand"
  | .pipePipe => "PipePipe"
  | .question => "Question"
  | .colon => "Colon"
  | .equal => "Equal"
  | .plusEqual => "PlusEqual"
  | .minusEqual => "MinusEqual"
  | .starEqual => "StarEqual"
  | .slashEqual => "SlashEqual"
  | .percentEqual => "PercentEqual"
  | .leftShiftEqual => "LeftShiftEqual"
  | .rightShiftEqual => "RightShiftEqual"
  | .unsignedRightShiftEqual => "UnsignedRightShiftEqual"
  | .ampersandEqual => "AmpersandEqual"
  | .pipeEqual => "PipeEqual"
  | .caretEqual => "CaretEqual"

/-- The longest punctuator a text starts with, and its length. -/
def ofStart? : List Char → Option (Punctuator × Nat)
  | '>' :: '>' :: '>' :: '=' :: _ => some (.unsignedRightShiftEqual, 4)
  | '=' :: '=' :: '=' :: _ => some (.strictEqual, 3)
  | '!' :: '=' :: '=' :: _ => some (.strictNotEqual, 3)
  | '>' :: '>' :: '>' :: _ => some (.unsignedRightShift, 3)
  | '<' :: '<' :: '=' :: _ => some (.leftShiftEqual, 3)
  | '>' :: '>' :: '=' :: _ => some (.rightShiftEqual, 3)
  | '<' :: '=' :: _ => some (.lessThanEqual, 2)
  | '>' :: '=' :: _ => some (.greaterThanEqual, 2)
  | '=' :: '=' :: _ => some (.equalEqual, 2)
  | '!' :: '=' :: _ => some (.notEqual, 2)
  | '+' :: '+' :: _ => some (.plusPlus, 2)
  | '-' :: '-' :: _ => some (.minusMinus, 2)
  | '<' :: '<' :: _ => some (.leftShift, 2)
  | '>' :: '>' :: _ => some (.rightShift, 2)
  | '&' :: '&' :: _ => some (.ampersandAmpersand, 2)
  | '|' :: '|' :: _ => some (.pipePipe, 2)
  | '+' :: '=' :: _ => some (.plusEqual, 2)
  | '-' :: '=' :: _ => some (.minusEqual, 2)
  | '*' :: '=' :: _ => some (.starEqual, 2)
  | '/' :: '=' :: _ => some (.slashEqual, 2)
  | '%' :: '=' :: _ => some (.percentEqual, 2)
  | '&' :: '=' :: _ => some (.ampersandEqual, 2)
  | '|' :: '=' :: _ => some (.pipeEqual, 2)
  | '^' :: '=' :: _ => some (.caretEqual, 2)
  | '{' :: _ => some (.leftBrace, 1)
  | '}' :: _ => some (.rightBrace, 1)
  | '(' :: _ => some (.leftParen, 1)
  | ')' :: _ => some (.rightParen, 1)
  | '[' :: _ => some (.leftBracket, 1)
  | ']' :: _ => some (.rightBracket, 1)
  | '.' :: _ => some (.dot, 1)
  | ';' :: _ => some (.semicolon, 1)
  | ',' :: _ => some (.comma, 1)
  | '<' :: _ => some (.lessThan, 1)
  | '>' :: _ => some (.greaterThan, 1)
  | '+' :: _ => some (.plus, 1)
  | '-' :: _ => some (.minus, 1)
  | '*' :: _ => some (.star, 1)
  | '/' :: _ => some (.slash, 1)
  | '%' :: _ => some (.percent, 1)
  | '&' :: _ => some (.ampersand, 1)
  | '|' :: _ => some (.pipe, 1)
  | '^' :: _ => some (.caret, 1)
  | '!' :: _ => some (.bang, 1)
  | '~' :: _ => some (.tilde, 1)
  | '?' :: _ => some (.question, 1)
  | ':' :: _ => some (.colon, 1)
  | '=' :: _ => some (.equal, 1)
  | _ => none

end Punctuator

/-- Why a stretch of text is not a token. -/
inductive LexicalFault
  | unterminatedComment
  | unterminatedString
  | malformedByteEscape
  | malformedUnitEscape
  | malformedHex (digits : String)
  | malformedNumber (text : String)
  | identifierAfterNumber
  | unexpectedCharacter (c : Char)
  deriving Repr, DecidableEq

def LexicalFault.message : LexicalFault → String
  | .unterminatedComment => "unterminated comment"
  | .unterminatedString => "unterminated string literal"
  | .malformedByteEscape => "malformed \\x escape"
  | .malformedUnitEscape => "malformed \\u escape"
  | .malformedHex digits => s!"malformed hex literal '0x{digits}'"
  | .malformedNumber text => s!"malformed number '{text}'"
  | .identifierAfterNumber => "identifier starts immediately after numeric literal"
  | .unexpectedCharacter c => s!"unexpected character '{c}'"

inductive TokenKind
  | number (value : Float)
  | string (value : String)
  | identifier (name : String)
  | word (w : ReservedWord)
  | mark (p : Punctuator)
  | invalid (fault : LexicalFault)
  | eof

namespace TokenKind

/-- The bare name of the kind, without its payload. -/
def name : TokenKind → String
  | .number _ => "Number"
  | .string _ => "String"
  | .identifier _ => "Identifier"
  | .word w => w.name
  | .mark p => p.name
  | .invalid _ => "Invalid"
  | .eof => "Eof"

/-- The kind with its payload, as messages show it. -/
def describe : TokenKind → String
  | .number value => "Number(" ++ Number.pointed value ++ ")"
  | .string value => "String(" ++ Text.quoted value ++ ")"
  | .identifier name => "Identifier(" ++ Text.quoted name ++ ")"
  | .invalid fault => "Invalid(" ++ Text.quoted fault.message ++ ")"
  | kind => kind.name

def isKeyword : TokenKind → Bool
  | .word w => !w.isLiteral
  | _ => false

def isLiteral : TokenKind → Bool
  | .number _ | .string _ => true
  | .word w => w.isLiteral
  | _ => false

def isEof : TokenKind → Bool
  | .eof => true
  | _ => false

def isMark (kind : TokenKind) (p : Punctuator) : Bool :=
  match kind with
  | .mark q => q == p
  | _ => false

def isWord (kind : TokenKind) (w : ReservedWord) : Bool :=
  match kind with
  | .word v => v == w
  | _ => false

end TokenKind

structure Token where
  kind : TokenKind
  span : Span
  /-- A line terminator stands between the token before and this one. -/
  newlineBefore : Bool

end ScriptEngine
