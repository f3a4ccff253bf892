import YulPruner.Token.Basic

namespace YulPruner

inductive Expectation where
  | identifier
  | literal
  | statement
  | mark (kind : Mark)
  | endOfInput
deriving DecidableEq, Repr

def Expectation.phrase : Expectation → String
  | .identifier => "identifier"
  | .literal => "literal"
  | .statement => "statement"
  | .mark m => "`" ++ m.symbol ++ "`"
  | .endOfInput => "end of input"

inductive Fault where
  /-- A mark of two characters lacks its second one. -/
  | incompleteMark (first missing : Char)
  | unexpectedCharacter (c : Char)
  | unterminatedComment
  | unterminatedString
  | invalidEscape
  | invalidNumber (text : String)
  /-- The next token, if there is one, is not what the grammar asks for. -/
  | expected (what : Expectation) (found : Option Token)
  | unterminatedBlock
  /-- An expression that is no call stands in the place of a statement. -/
  | bareExpression
  | emptySwitch
deriving DecidableEq, Repr

def Fault.message : Fault → String
  | .incompleteMark first missing =>
    "expected `" ++ missing.toString ++ "` after `" ++ first.toString ++ "`"
  | .unexpectedCharacter c => "unexpected character `" ++ c.toString ++ "`"
  | .unterminatedComment => "unterminated block comment"
  | .unterminatedString => "unterminated string literal"
  | .invalidEscape => "invalid escape sequence"
  | .invalidNumber text => "invalid number literal `" ++ text ++ "`"
  | .expected what found =>
    "expected " ++ what.phrase ++ ", found " ++ (found.map Token.describe).getD endLabel
  | .unterminatedBlock => "unterminated block"
  | .bareExpression => "only function calls can be used as statements"
  | .emptySwitch => "switch needs at least one case or default"

structure ParseError where
  position : Position
  fault : Fault
deriving DecidableEq, Repr

def ParseError.message (e : ParseError) : String :=
  toString e.position.line ++ ":" ++ toString e.position.column ++ ": " ++ e.fault.message

end YulPruner
