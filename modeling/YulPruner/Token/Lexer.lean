import YulPruner.Fault
import YulPruner.Text.Basic

namespace YulPruner

def isNameStart (c : Char) : Bool := c.isAlpha || c == '_' || c == '$'

def isNamePart (c : Char) : Bool := isNameStart c || c.isDigit || c == '.'

def Token.ofWord (word : String) : Token :=
  match Keyword.ofWord? word with
  | some k => .keyword k
  | none => .identifier word

/-- The number that an alphanumeric run stands for: hexadecimal behind `0x`, decimal otherwise. -/
def numeral? : List Char → Option Nat
  | '0' :: 'x' :: digits =>
    if digits ≠ [] ∧ digits.all isHexDigit then some (hexValue digits) else none
  | digits =>
    if digits ≠ [] ∧ digits.all Char.isDigit then some (Nat.ofDigitChars 10 digits 0) else none

def Word.ofNat? (n : Nat) : Option Word :=
  if n < 1 <<< 128 then some (BitVec.ofNat 128 n) else none

def lineCommentRest : List Char → List Char
  | [] => []
  | c :: cs => if c = '\n' then [c] else c :: lineCommentRest cs

/-- The rest of a block comment, up to the first mark that closes it. -/
def blockCommentRest : List Char → Option (List Char)
  | [] => none
  | c :: cs =>
    if c = '*' ∧ cs.head? = some '/' then some ['*', '/']
    else (blockCommentRest cs).map (c :: ·)

/-- The value of a string literal whose opening quote has been read, and the characters up to the
closing quote. -/
def stringRest : List Char → Except Fault (List Char × List Char)
  | [] => .error .unterminatedString
  | '"' :: _ => .ok ([], ['"'])
  | '\n' :: _ => .error .unterminatedString
  | ['\\'] => .error .invalidEscape
  | '\\' :: c :: cs =>
    match unescape? c with
    | none => .error .invalidEscape
    | some v => (stringRest cs).map fun (value, text) => (v :: value, '\\' :: c :: text)
  | c :: cs => (stringRest cs).map fun (value, text) => (c :: value, c :: text)

structure Tile where
  token : Option Token
  text : List Char
deriving DecidableEq

def pairTile (m : Mark) (first second : Char) (rest : List Char) : Except Fault Tile :=
  if rest.head? = some second then .ok ⟨some (.mark m), [first, second]⟩
  else .error (.incompleteMark first second)

def commentTile (rest : List Char) : Except Fault Tile :=
  match rest with
  | '/' :: cs => .ok ⟨none, '/' :: '/' :: lineCommentRest cs⟩
  | '*' :: cs =>
    match blockCommentRest cs with
    | some text => .ok ⟨none, '/' :: '*' :: text⟩
    | none => .error .unterminatedComment
  | _ => .error (.unexpectedCharacter '/')

def stringTile (rest : List Char) : Except Fault Tile :=
  (stringRest rest).map fun (value, text) => ⟨some (.string (String.ofList value)), '"' :: text⟩

def numberTile (first : Char) (rest : List Char) : Except Fault Tile :=
  let text := first :: rest.takeWhile Char.isAlphanum
  match (numeral? text).bind Word.ofNat? with
  | some n => .ok ⟨some (.number n), text⟩
  | none => .error (.invalidNumber (String.ofList text))

def wordTile (first : Char) (rest : List Char) : Tile :=
  let text := first :: rest.takeWhile isNamePart
  ⟨some (Token.ofWord (String.ofList text)), text⟩

/-- The tile at the head of the text `first :: rest`. -/
def tile (first : Char) (rest : List Char) : Except Fault Tile :=
  if isBlank first then .ok ⟨none, [first]⟩
  else if first.isDigit then numberTile first rest
  else if isNameStart first then .ok (wordTile first rest)
  else match first with
    | '/' => commentTile rest
    | '"' => stringTile rest
    | '\x7b' => .ok ⟨some (.mark .leftBrace), [first]⟩
    | '\x7d' => .ok ⟨some (.mark .rightBrace), [first]⟩
    | '(' => .ok ⟨some (.mark .leftParen), [first]⟩
    | ')' => .ok ⟨some (.mark .rightParen), [first]⟩
    | ',' => .ok ⟨some (.mark .comma), [first]⟩
    | ':' => pairTile .assign ':' '=' rest
    | '-' => pairTile .arrow '-' '>' rest
    | c => .error (.unexpectedCharacter c)

def TokenStream.push (s : TokenStream) (p : Position) : Option Token → TokenStream
  | none => s
  | some t => { s with tokens := ⟨p, t⟩ :: s.tokens }

/-- Lays tiles from position `p` on. `covered` counts the characters at the head of the text that
the last tile covers already. -/
def layTiles (p : Position) : Nat → List Char → Except ParseError TokenStream
  | _, [] => .ok ⟨[], p⟩
  | covered + 1, _ :: cs => layTiles p covered cs
  | 0, c :: cs =>
    match tile c cs with
    | .error fault => .error ⟨p, fault⟩
    | .ok t => (layTiles (p.after t.text) (t.text.length - 1) cs).map (·.push p t.token)

def tokenize (source : String) : Except ParseError TokenStream :=
  layTiles .start 0 source.toList

end YulPruner
