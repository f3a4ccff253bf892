import YulPruner.Yaml.Layout
import YulPruner.Yaml.Scalar

namespace YulPruner.Yaml

namespace Layout

def takeMark (t : Token) (width : Nat) (keyAllowed : Bool) (s : Layout) : Option Layout :=
  s.dropCandidate.map fun s => ((s.add t).advance width).allowKey keyAllowed

def takeMarker (t : Token) (s : Layout) : Option Layout := (s.closeBlocks 0).takeMark t 3 false

def takeEnd (s : Layout) : Option Layout :=
  let s := if s.column = 1 then s else { s with place := s.place.newline }
  (s.closeBlocks 0).takeMark .textEnd 0 false

def takeOpening (t : Token) (s : Layout) : Option Layout :=
  s.noteCandidate.map fun s => ((s.enterFlow.add t).advance 1).allowKey true

def takeClosing (t : Token) (s : Layout) : Option Layout :=
  s.dropCandidate.map fun s => ((s.leaveFlow.add t).advance 1).allowKey false

def takeEntry (start t : Token) (keyAllowed : Bool) (s : Layout) : Option Layout :=
  if s.inFlow || s.keyAllowed then
    (s.openBlock start s.candidateHere).takeMark t 1 keyAllowed
  else none

/-- The colon behind the candidate, or behind a key that is left out. -/
def takeColon (s : Layout) : Option Layout :=
  match s.candidate with
  | some k =>
    let s := ({ s with candidate := none }.addBefore k .key).openBlock .blockMapping k
    some (((s.add .value).advance 1).allowKey false)
  | none => s.takeEntry .blockMapping .value !s.inFlow

def takeScalar (style : Style) (e : Extent) (s : Layout) : Layout :=
  { s.add (.scalar (String.ofList e.text) style) with
    rest := e.rest, place := e.place, keyAllowed := e.brokenOff }

def takeQuoted (quote : Char) (s : Layout) : Option Layout := do
  let s ← s.noteCandidate
  let e ← quoted? quote (s.place.next quote) s.rest.tail
  return s.takeScalar .quoted e

/-- A plain scalar goes on right of the innermost collection in block style. -/
def takePlain (s : Layout) : Option Layout := do
  let s ← s.noteCandidate
  let e ← plain? s.inFlow (s.indent + 1) s.place s.rest
  return s.takeScalar .plain e

def take (s : Layout) : Option Layout :=
  match s.rest with
  | [] => s.takeEnd
  | c :: _ =>
    if s.column = 1 ∧ c = '%' then none
    else if s.column = 1 ∧ atMarker "---" s.rest then s.takeMarker .documentStart
    else if s.column = 1 ∧ atMarker "..." s.rest then s.takeMarker .documentEnd
    else if c = '[' then s.takeOpening .openBracket
    else if c = '\x7b' then s.takeOpening .openBrace
    else if c = ']' then s.takeClosing .closeBracket
    else if c = '\x7d' then s.takeClosing .closeBrace
    else if c = ',' then s.takeMark .comma 1 true
    else if s.atIndicator '-' then s.takeEntry .blockSequence .dash true
    else if c = '?' ∧ (s.inFlow ∨ s.atIndicator '?') then s.takeEntry .blockMapping .key !s.inFlow
    else if c = ':' ∧ (s.inFlow ∨ s.atIndicator ':') then s.takeColon
    else if c = '"' ∨ c = '\'' then s.takeQuoted c
    else s.takePlain

/-- The next token. Collections in block style end before what stands to the left of them. -/
def step (s : Layout) : Option Layout := do
  let s ← s.skip.dropStale
  let s ← (s.closeBlocks s.column).take
  s.dropStale

def isComplete (s : Layout) : Bool := s.tokens.back?.any (·.value == .textEnd)

def run (s : Layout) : (fuel : Nat) → List (Located Token)
  | 0 => s.settled
  | fuel + 1 =>
    match s.step with
    | none => s.settled
    | some s => if s.isComplete then s.tokens.toList else s.run fuel

end Layout

/-- The tokens of a text, up to a fault and as far as they are settled. Every token but the last
one takes a character. -/
def lex (text : List Char) : List (Located Token) := (Layout.ofText text).run (text.length + 1)

end YulPruner.Yaml
