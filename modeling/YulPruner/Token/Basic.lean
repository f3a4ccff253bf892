import YulPruner.Syntax.Basic
import YulPruner.Text.Basic
import YulPruner.Text.Legible

namespace YulPruner

inductive Keyword where
  | function
  | declare
  | conditional
  | switch
  | case
  | default
  | loop
  | breakLoop
  | continueLoop
  | leave
  | true
  | false
deriving DecidableEq, Repr

def Keyword.all : List Keyword :=
  [.function, .declare, .conditional, .switch, .case, .default, .loop, .breakLoop, .continueLoop,
   .leave, .true, .false]

def Keyword.word : Keyword → String
  | .function => "function"
  | .declare => "let"
  | .conditional => "if"
  | .switch => "switch"
  | .case => "case"
  | .default => "default"
  | .loop => "for"
  | .breakLoop => "break"
  | .continueLoop => "continue"
  | .leave => "leave"
  | .true => "true"
  | .false => "false"

def Keyword.ofWord? (word : String) : Option Keyword :=
  Keyword.all.find? (·.word == word)

inductive Mark where
  | leftBrace
  | rightBrace
  | leftParen
  | rightParen
  | comma
  | assign
  | arrow
deriving DecidableEq, Repr

def Mark.symbol : Mark → String
  | .leftBrace => "\x7b"
  | .rightBrace => "\x7d"
  | .leftParen => "("
  | .rightParen => ")"
  | .comma => ","
  | .assign => ":="
  | .arrow => "->"

inductive Token where
  | identifier (name : Name)
  | number (value : Word)
  | string (value : String)
  | keyword (kind : Keyword)
  | mark (kind : Mark)
deriving DecidableEq, Repr

def Token.spelling : Token → String
  | .identifier x => x
  | .number n => toString n.toNat
  | .string s => quote s
  | .keyword k => k.word
  | .mark m => m.symbol

def Token.label : Token → String
  | .identifier _ => "Identifier"
  | .number _ => "Number"
  | .string _ => "String"
  | .keyword .function => "Function"
  | .keyword .declare => "Let"
  | .keyword .conditional => "If"
  | .keyword .switch => "Switch"
  | .keyword .case => "Case"
  | .keyword .default => "Default"
  | .keyword .loop => "For"
  | .keyword .breakLoop => "Break"
  | .keyword .continueLoop => "Continue"
  | .keyword .leave => "Leave"
  | .keyword .true => "True"
  | .keyword .false => "False"
  | .mark .leftBrace => "LeftBrace"
  | .mark .rightBrace => "RightBrace"
  | .mark .leftParen => "LeftParen"
  | .mark .rightParen => "RightParen"
  | .mark .comma => "Comma"
  | .mark .assign => "Assign"
  | .mark .arrow => "Arrow"

def Token.describe (t : Token) : String :=
  match t with
  | .identifier x => t.label ++ "(" ++ legible x ++ ")"
  | .number n => t.label ++ "(" ++ toString n.toNat ++ ")"
  | .string s => t.label ++ "(" ++ legible s ++ ")"
  | _ => t.label

/-- The tokens still to be read, and the position where the text ends. -/
structure TokenStream where
  tokens : List (Located Token)
  finish : Position
deriving DecidableEq, Repr

def endLabel : String := "Eof"

def TokenStream.position (s : TokenStream) : Position :=
  match s.tokens with
  | [] => s.finish
  | t :: _ => t.position

end YulPruner
