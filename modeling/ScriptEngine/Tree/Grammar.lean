/-
Tokens to trees. The functions call each other along the grammar and count
their nesting down from a bound that the number of tokens gives; every call
that does not fail reads at least one token.
-/
import ScriptEngine.Tree.Cursor

namespace ScriptEngine.Grammar

open Parse

/-- What ends a list of statements, besides the end of input. -/
inductive ListEnd
  | program | block | clause

def ListEnd.stops : ListEnd → TokenKind → Bool
  | .program, _ => false
  | .block, kind => kind.isMark .rightBrace
  | .clause, kind => kind.isMark .rightBrace || kind.isWord .caseWord || kind.isWord .defaultWord

/-- The names between the parentheses of a function. -/
def parameters : Nat → Array Identifier → Parse (List Identifier)
  | 0, _ => throw .exhausted
  | fuel + 1, before => do
    let params := before.push (← identifier)
    if ← atMark .comma then
      advance
      parameters fuel params
    else return params.toList

/-- An optional label on the same line, and the end of the statement. -/
def jumpLabel : Parse (Option Identifier) := do
  let t ← token
  match t.kind, t.newlineBefore with
  | .identifier _, false => do
    let label ← identifier
    semicolon
    return some label
  | _, _ => do
    semicolon
    return none

mutual

def statement : Nat → Parse Stmt
  | 0 => throw .exhausted
  | fuel + 1 => do
    let start := (← token).span
    match ← kind with
    | .word .varWord => do
      advance
      let ds ← declarators fuel true #[]
      semicolon
      close start (.var ds)
    | .word .letWord | .word .constWord => throw (.lexicalDeclaration start)
    | .word .functionWord => do close start (.function (← function fuel true))
    | .word .ifWord => do close start (← branch fuel)
    | .word .switchWord => do close start (← switch fuel)
    | .word .whileWord => do
      advance
      let test ← parenthesized fuel
      close start (.loop (.whileTest test) (← statement fuel))
    | .word .doWord => do
      advance
      let body ← statement fuel
      expectWord .whileWord
      let test ← parenthesized fuel
      if ← atMark .semicolon then advance
      close start (.loop (.doWhile test) body)
    | .word .forWord => do close start (← forLoop fuel)
    | .word .returnWord => do
      advance
      let t ← token
      if t.kind.isMark .semicolon || t.kind.isMark .rightBrace || t.kind.isEof || t.newlineBefore then
        semicolon
        close start (.returns none)
      else
        let value ← expression fuel true
        semicolon
        close start (.returns (some value))
    | .word .breakWord => do
      advance
      close start (.breaks (← jumpLabel))
    | .word .continueWord => do
      advance
      close start (.continues (← jumpLabel))
    | .word .throwWord => do
      advance
      if (← token).newlineBefore then throw .newlineAfterThrow
      let value ← expression fuel true
      semicolon
      close start (.throws value)
    | .word .tryWord => do close start (← attempt fuel)
    | .word .withWord => do
      advance
      let object ← parenthesized fuel
      close start (.scoped object (← statement fuel))
    | .word .debuggerWord => do
      advance
      semicolon
      close start .empty
    | .mark .leftBrace => do close start (.block (← block fuel))
    | .mark .semicolon => do
      advance
      close start .empty
    | _ => do
      let e ← expression fuel true
      labelled fuel start e

/-- The rest of a statement that began with an expression: a bare name and a
colon are a label for the statement that follows. -/
def labelled : Nat → Span → Expr → Parse Stmt
  | 0, _, _ => throw .exhausted
  | fuel + 1, start, e => do
    match e, ← atMark .colon with
    | .identifier id, true => do
      advance
      let s ← statement fuel
      if s.labels.contains id.name then throw (.repeatedLabel id.name)
      return { s with labels := id.name :: s.labels, span := start.cover s.span }
    | _, _ => do
      semicolon
      close start (.expression e)

def statements : Nat → ListEnd → Array Stmt → Parse (List Stmt)
  | 0, _, _ => throw .exhausted
  | fuel + 1, stop, before => do
    let k ← kind
    if stop.stops k || k.isEof then return before.toList
    else
      let s ← statement fuel
      statements fuel stop (before.push s)

def block : Nat → Parse (List Stmt)
  | 0 => throw .exhausted
  | fuel + 1 => do
    expectMark .leftBrace
    let body ← statements fuel .block #[]
    expectMark .rightBrace
    return body

def parenthesized : Nat → Parse Expr
  | 0 => throw .exhausted
  | fuel + 1 => do
    expectMark .leftParen
    let e ← expression fuel true
    expectMark .rightParen
    return e

/-- The declarations behind `var`. -/
def declarators : Nat → Bool → Array Declarator → Parse (List Declarator)
  | 0, _, _ => throw .exhausted
  | fuel + 1, allowIn, before => do
    let id ← identifier
    let init ←
      if ← atMark .equal then do
        advance
        let e ← climb fuel allowIn Precedence.assignment
        pure (some e)
      else pure none
    let ds := before.push ⟨id, init⟩
    if ← atMark .comma then
      advance
      declarators fuel allowIn ds
    else return ds.toList

def function : Nat → Bool → Parse FunctionTree
  | 0, _ => throw .exhausted
  | fuel + 1, requireName => do
    let start := (← token).span
    advance
    let id ←
      match ← kind with
      | .identifier _ => some <$> identifier
      | _ => if requireName then some <$> identifier else pure none
    expectMark .leftParen
    let params ← if ← atMark .rightParen then pure [] else parameters fuel #[]
    expectMark .rightParen
    expectMark .leftBrace
    let body ← statements fuel .block #[]
    expectMark .rightBrace
    return { id, params, body, span := start.cover (← get).last }

def branch : Nat → Parse StmtKind
  | 0 => throw .exhausted
  | fuel + 1 => do
    advance
    let test ← parenthesized fuel
    let consequent ← statement fuel
    if ← atWord .elseWord then
      advance
      let alternate ← statement fuel
      return .branch test consequent (some alternate)
    else return .branch test consequent none

def switch : Nat → Parse StmtKind
  | 0 => throw .exhausted
  | fuel + 1 => do
    advance
    let discriminant ← parenthesized fuel
    expectMark .leftBrace
    let cases ← clauses fuel #[]
    expectMark .rightBrace
    return .switch discriminant cases

/-- The clauses of a switch, at most one of them without a test. -/
def clauses : Nat → Array SwitchCase → Parse (List SwitchCase)
  | 0, _ => throw .exhausted
  | fuel + 1, before => do
    let k ← kind
    if k.isMark .rightBrace || k.isEof then return before.toList
    else
      let test ←
        if k.isWord .caseWord then do
          advance
          let e ← expression fuel true
          expectMark .colon
          pure (some e)
        else if k.isWord .defaultWord then do
          advance
          expectMark .colon
          if before.any fun c => c.test.isNone then throw .repeatedDefault
          pure none
        else throw .expectedCase
      let body ← statements fuel .clause #[]
      clauses fuel (before.push ⟨test, body⟩)

def forLoop : Nat → Parse StmtKind
  | 0 => throw .exhausted
  | fuel + 1 => do
    advance
    expectMark .leftParen
    match ← kind with
    | .mark .semicolon => countedLoop fuel none
    | .word .letWord | .word .constWord => throw .lexicalLoopDeclaration
    | .word .varWord => do
      advance
      let ds ← declarators fuel false #[]
      match ds, ← atWord .inWord with
      | [d], true => keyLoop fuel (.declare d)
      | _, _ => countedLoop fuel (some (.declare ds))
    | _ => do
      let e ← expression fuel false
      if ← atWord .inWord then
        if e.isReference then keyLoop fuel (.assign e) else throw .loopTarget
      else countedLoop fuel (some (.evaluate e))

/-- A loop behind its initial part. -/
def countedLoop : Nat → Option LoopInit → Parse StmtKind
  | 0, _ => throw .exhausted
  | fuel + 1, init => do
    expectMark .semicolon
    let test ← if ← atMark .semicolon then pure none else some <$> expression fuel true
    expectMark .semicolon
    let update ← if ← atMark .rightParen then pure none else some <$> expression fuel true
    expectMark .rightParen
    return .loop (.counted init test update) (← statement fuel)

/-- A loop over keys behind its target. -/
def keyLoop : Nat → KeyTarget → Parse StmtKind
  | 0, _ => throw .exhausted
  | fuel + 1, target => do
    expectWord .inWord
    let object ← expression fuel true
    expectMark .rightParen
    return .loop (.forIn target object) (← statement fuel)

def attempt : Nat → Parse StmtKind
  | 0 => throw .exhausted
  | fuel + 1 => do
    advance
    let body ← block fuel
    let handler ←
      if ← atWord .catchWord then do
        advance
        expectMark .leftParen
        let param ← identifier
        expectMark .rightParen
        let handlerBody ← block fuel
        pure (some (CatchClause.mk param handlerBody))
      else pure none
    let finalizer ←
      if ← atWord .finallyWord then do
        advance
        some <$> block fuel
      else pure none
    if handler.isNone && finalizer.isNone then throw .attemptAlone
    return .attempt body handler finalizer

/-- A full expression, with the comma operator. -/
def expression : Nat → Bool → Parse Expr
  | 0, _ => throw .exhausted
  | fuel + 1, allowIn => do
    let e ← climb fuel allowIn Precedence.assignment
    if ← atMark .comma then commaList fuel allowIn #[e] else return e

/-- The items behind the first of a comma list. -/
def commaList : Nat → Bool → Array Expr → Parse Expr
  | 0, _, _ => throw .exhausted
  | fuel + 1, allowIn, before => do
    if ← atMark .comma then
      advance
      let e ← climb fuel allowIn Precedence.comma.succ
      commaList fuel allowIn (before.push e)
    else return .sequence before.toList

/-- An expression of operators that bind at least as tightly as `least`. Where
`in` is not allowed it ends the expression. -/
def climb : Nat → Bool → Nat → Parse Expr
  | 0, _, _ => throw .exhausted
  | fuel + 1, allowIn, least => do
    let left ← unary fuel
    climbFrom fuel allowIn least left

/-- The operators behind a left operand. -/
def climbFrom : Nat → Bool → Nat → Expr → Parse Expr
  | 0, _, _, _ => throw .exhausted
  | fuel + 1, allowIn, least, left => do
    match Operator.between? (← kind) with
    | none => return left
    | some op =>
      if op.primary < least || (!allowIn && op.kind == .binary .isIn) then return left
      else
        advance
        if op.kind == .conditional then
          let consequent ← climb fuel true op.secondary
          expectMark .colon
          let alternate ← climb fuel allowIn op.tertiary
          let e ← build op [left, consequent, alternate]
          climbFrom fuel allowIn least e
        else
          let right ← climb fuel allowIn op.secondary
          let e ← build op [left, right]
          climbFrom fuel allowIn least e

def unary : Nat → Parse Expr
  | 0 => throw .exhausted
  | fuel + 1 => do
    match Operator.before? (← kind) with
    | some op => do
      advance
      let operand ← unary fuel
      build op [operand]
    | none => updated fuel

/-- An operand with an optional `++` or `--` behind it on the same line. -/
def updated : Nat → Parse Expr
  | 0 => throw .exhausted
  | fuel + 1 => do
    let operand ← leftHandSide fuel
    let t ← token
    match Operator.after? t.kind, t.newlineBefore with
    | some op, false => do
      advance
      build op [operand]
    | _, _ => return operand

/-- Property accesses, calls and `new`. A `new` without arguments is not the
base of an access or a call. -/
def leftHandSide : Nat → Parse Expr
  | 0 => throw .exhausted
  | fuel + 1 => do
    if ← atWord .newWord then
      let operand ← newOperand fuel
      let node := Pending.mk Operator.new [operand] false
      if node.effectivePrecedence < Precedence.member then return .new operand
      else suffixes fuel (.new operand)
    else
      let e ← primary fuel
      suffixes fuel e

/-- What `new` applies to: a base with property accesses and at most one argument list. -/
def newOperand : Nat → Parse Expr
  | 0 => throw .exhausted
  | fuel + 1 => do
    advance
    let base ← if ← atWord .newWord then Expr.new <$> newOperand fuel else primary fuel
    let target ← accesses fuel base
    if ← atMark .leftParen then call fuel target else return target

def suffixes : Nat → Expr → Parse Expr
  | 0, _ => throw .exhausted
  | fuel + 1, base => do
    match ← kind with
    | .mark .dot | .mark .leftBracket => do
      let e ← access fuel base
      suffixes fuel e
    | .mark .leftParen => do
      let e ← call fuel base
      suffixes fuel e
    | _ => return base

def accesses : Nat → Expr → Parse Expr
  | 0, _ => throw .exhausted
  | fuel + 1, base => do
    match ← kind with
    | .mark .dot | .mark .leftBracket => do
      let e ← access fuel base
      accesses fuel e
    | _ => return base

/-- One property access behind its object. -/
def access : Nat → Expr → Parse Expr
  | 0, _ => throw .exhausted
  | fuel + 1, base => do
    if ← atMark .dot then
      advance
      let property ← propertyName
      build Operator.member [base, .identifier property]
    else
      expectMark .leftBracket
      let key ← expression fuel true
      expectMark .rightBracket
      build Operator.index [base, key]

/-- An argument list behind its callee. -/
def call : Nat → Expr → Parse Expr
  | 0, _ => throw .exhausted
  | fuel + 1, callee => do
    expectMark .leftParen
    if ← atMark .rightParen then
      advance
      build (Operator.call false) [callee]
    else
      let arguments ← expression fuel true
      expectMark .rightParen
      build (Operator.call true) [callee, arguments]

def primary : Nat → Parse Expr
  | 0 => throw .exhausted
  | fuel + 1 => do
    let t ← token
    match t.kind with
    | .number value => do
      advance
      return .number value
    | .string value => do
      advance
      return .string value
    | .word .trueWord => do
      advance
      return .boolean true
    | .word .falseWord => do
      advance
      return .boolean false
    | .word .nullWord => do
      advance
      return .null
    | .identifier name => do
      advance
      return .identifier ⟨name, t.span⟩
    | .word .thisWord => do
      advance
      return .this
    | .mark .leftParen => do
      let e ← parenthesized fuel
      build Operator.grouping [e]
    | .mark .leftBracket => do
      advance
      let items ← elements fuel #[]
      expectMark .rightBracket
      return .array items
    | .mark .leftBrace => do
      advance
      let ps ← properties fuel #[]
      expectMark .rightBrace
      return .object ps
    | .word .functionWord => do
      let f ← function fuel false
      return .function f
    | .invalid fault => throw (.lexical fault t.span)
    | _ => throw (.unexpectedToken t.kind t.span)

/-- The elements of an array literal; a comma without an element is a hole. -/
def elements : Nat → Array (Option Expr) → Parse (List (Option Expr))
  | 0, _ => throw .exhausted
  | fuel + 1, before => do
    let k ← kind
    if k.isMark .rightBracket || k.isEof then return before.toList
    else if k.isMark .comma then
      advance
      elements fuel (before.push none)
    else
      let e ← climb fuel true Precedence.assignment
      unless ← atMark .rightBracket do expectMark .comma
      elements fuel (before.push (some e))

/-- The properties of an object literal. Keys are names, strings and numbers. -/
def properties : Nat → Array (String × Expr) → Parse (List (String × Expr))
  | 0, _ => throw .exhausted
  | fuel + 1, before => do
    let k ← kind
    if k.isMark .rightBrace || k.isEof then return before.toList
    else
      let key ←
        match k with
        | .string value => do
          advance
          pure value
        | .number value => do
          advance
          pure (Number.text value)
        | _ => Identifier.name <$> propertyName
      expectMark .colon
      let e ← climb fuel true Precedence.assignment
      unless ← atMark .rightBrace do expectMark .comma
      properties fuel (before.push (key, e))

end

end ScriptEngine.Grammar

namespace ScriptEngine

/-- The program that a row of tokens stands for. -/
def Program.ofTokens (tokens : List Token) : Except SyntaxFault Program := do
  let c := Cursor.ofTokens tokens
  let (body, _) ← (Grammar.statements c.fuel .program #[]).run c
  return ⟨body⟩

/-- The expression that a row of tokens begins with, and the place behind it. -/
def Expr.ofTokens (tokens : List Token) : Except SyntaxFault (Expr × Cursor) :=
  let c := Cursor.ofTokens tokens
  (Grammar.expression c.fuel true).run c

/-- The program a text stands for. -/
def Program.parse (source : String) : Except SyntaxFault Program :=
  Program.ofTokens (Scanner.scan source)

/-- The expression a text begins with. -/
def Expr.parse (source : String) : Except SyntaxFault Expr :=
  Prod.fst <$> Expr.ofTokens (Scanner.scan source)

end ScriptEngine
