import YulPruner.Text.Basic

namespace YulPruner.Yaml

def isAllowed (c : Char) : Bool :=
  c ∈ ['\t', '\n', '\r', '\u0085'] || (' ' ≤ c && c ≤ '~') ||
    ('\u00a0' ≤ c && c != '\ufffe' && c != '\uffff')

def unifyBreaks : List Char → List Char
  | [] => []
  | '\r' :: '\n' :: cs => '\n' :: unifyBreaks cs
  | c :: cs => (if c = '\r' ∨ c = '\u0085' then '\n' else c) :: unifyBreaks cs

def isBreak (c : Char) : Bool := c == '\n' || c == '\u2028' || c == '\u2029'

def isSpace (c : Char) : Bool := c == ' ' || c == '\t'

def atGap (text : List Char) : Bool := text.head?.all fun c => isSpace c || isBreak c

def atMarker (mark : String) (text : List Char) : Bool :=
  mark.toList.isPrefixOf text && atGap (text.drop mark.length)

def atAnyMarker (text : List Char) : Bool := atMarker "---" text || atMarker "..." text

structure Place where
  index : Nat
  position : Position
deriving DecidableEq, Repr

namespace Place

def start : Place := ⟨0, .start⟩

def line (p : Place) : Nat := p.position.line

def column (p : Place) : Nat := p.position.column

def newline (p : Place) : Place := { p with position := ⟨p.line + 1, 1⟩ }

def next (p : Place) (c : Char) : Place :=
  if isBreak c then ⟨p.index + 1, ⟨p.line + 1, 1⟩⟩ else ⟨p.index + 1, ⟨p.line, p.column + 1⟩⟩

def after (p : Place) (text : List Char) : Place := text.foldl next p

end Place

end YulPruner.Yaml
