import YulPruner.Token.Lexer

namespace YulPruner

abbrev Parser := EStateM ParseError TokenStream

namespace Parser

def peek? : Parser (Option Token) := do
  return (← get).tokens.head?.map Located.value

def peekSecond? : Parser (Option Token) := do
  return ((← get).tokens[1]?).map Located.value

def advance : Parser Unit :=
  modify fun s => { s with tokens := s.tokens.tail }

def fail {α : Type} (fault : Fault) : Parser α := do
  throw ⟨(← get).position, fault⟩

def unexpected {α : Type} (what : Expectation) : Parser α := do
  fail (.expected what (← peek?))

def accept (t : Token) : Parser Bool := do
  if (← peek?) = some t then
    advance
    return true
  else
    return false

def expect (m : Mark) : Parser Unit := do
  unless ← accept (.mark m) do
    unexpected (.mark m)

def expectEnd : Parser Unit := do
  if (← peek?).isSome then
    unexpected .endOfInput

def identifier : Parser Name := do
  match ← peek? with
  | some (.identifier x) => do
    advance
    return x
  | _ => unexpected .identifier

def literal : Parser Literal := do
  match ← peek? with
  | some (.number n) => do
    advance
    return .number n
  | some (.string s) => do
    advance
    return .string s
  | some (.keyword .true) => do
    advance
    return .bool true
  | some (.keyword .false) => do
    advance
    return .bool false
  | _ => unexpected .literal

/-- A bound on the items in what is left of the stream. -/
def bound : Parser Nat := do
  return (← get).tokens.length + 1

def moreItems {α : Type} (item : Parser α) : Nat → Parser (List α)
  | 0 => return []
  | n + 1 => do
    if ← accept (.mark .comma) then
      let a ← item
      return a :: (← moreItems item n)
    else
      return []

def items {α : Type} (item : Parser α) : Parser (List α) := do
  let a ← item
  return a :: (← moreItems item (← bound))

def names : Parser (List Name) := items identifier

/-- Items up to a closing parenthesis, which is left. -/
def itemsInParens {α : Type} (item : Parser α) : Parser (List α) := do
  if (← peek?) = some (.mark .rightParen) then
    return []
  else
    items item

def expressionWithin : Nat → Parser Expr
  | 0 => unexpected .literal
  | n + 1 => do
    match ← peek? with
    | some (.identifier x) => do
      advance
      if ← accept (.mark .leftParen) then
        let arguments ← itemsInParens (expressionWithin n)
        expect .rightParen
        return .call x arguments
      else
        return .var x
    | _ => return .literal (← literal)

def expression : Parser Expr := do
  expressionWithin (← bound)

def simpleStatement : Parser Stmt := do
  match ← peekSecond? with
  | some (.mark .assign) | some (.mark .comma) => do
    let targets ← names
    expect .assign
    return .assignment targets (← expression)
  | _ => do
    match ← expression with
    | .call f arguments => return .expression (.call f arguments)
    | _ => fail .bareExpression

def declaration : Parser Stmt := do
  let xs ← names
  if ← accept (.mark .assign) then
    return .declaration xs (some (← expression))
  else
    return .declaration xs none

section Nested

variable (block : Parser Block)

def function : Parser Stmt := do
  let name ← identifier
  expect .leftParen
  let parameters ← itemsInParens identifier
  expect .rightParen
  let returns ← if ← accept (.mark .arrow) then names else pure []
  let body ← block
  return .function ⟨name, parameters, returns, body⟩

/-- The arms of a switch. A default arm is the last one. -/
def cases : Nat → Parser (List Case)
  | 0 => return []
  | n + 1 => do
    if ← accept (.keyword .case) then
      let value ← literal
      let body ← block
      return ⟨some value, body⟩ :: (← cases n)
    else if ← accept (.keyword .default) then
      return [⟨none, ← block⟩]
    else
      return []

def switch : Parser Stmt := do
  let scrutinee ← expression
  let arms ← cases block (← bound)
  if arms.isEmpty then
    fail .emptySwitch
  return .switch scrutinee arms

def loop : Parser Stmt := do
  let pre ← block
  let condition ← expression
  let post ← block
  let body ← block
  return .loop pre condition post body

def statement : Parser Stmt := do
  match ← peek? with
  | some (.mark .leftBrace) => return .block (← block)
  | some (.keyword .function) => do
    advance
    function block
  | some (.keyword .declare) => do
    advance
    declaration
  | some (.keyword .conditional) => do
    advance
    let condition ← expression
    return .conditional condition (← block)
  | some (.keyword .switch) => do
    advance
    switch block
  | some (.keyword .loop) => do
    advance
    loop block
  | some (.keyword .breakLoop) => do
    advance
    return .jump .breakLoop
  | some (.keyword .continueLoop) => do
    advance
    return .jump .continueLoop
  | some (.keyword .leave) => do
    advance
    return .jump .leave
  | some (.identifier _) => simpleStatement
  | _ => unexpected .statement

end Nested

/-- Statements up to a closing brace, which is taken. -/
def statementsWithin : Nat → Parser Block
  | 0 => fail .unterminatedBlock
  | n + 1 => do
    match ← peek? with
    | some (.mark .rightBrace) => do
      advance
      return []
    | none => fail .unterminatedBlock
    | some _ => do
      let s ← statement do
        expect .leftBrace
        statementsWithin n
      return s :: (← statementsWithin n)

def block : Parser Block := do
  expect .leftBrace
  statementsWithin (← bound)

def program : Parser Program := do
  let root ← block
  expectEnd
  return ⟨root⟩

end Parser

def parse (source : String) : Except ParseError Program := do
  match Parser.program.run (← tokenize source) with
  | .ok p _ => return p
  | .error e _ => throw e

end YulPruner
