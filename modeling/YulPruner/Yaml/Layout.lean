import YulPruner.Yaml.Character
import YulPruner.Yaml.Token

namespace YulPruner.Yaml

structure Candidate where
  /-- How many tokens stand before it. -/
  token : Nat
  place : Place
  /-- Whether nothing but a key may stand there. -/
  required : Bool
deriving DecidableEq, Repr

/-- A key ends on the line where it begins, and is not much longer than a thousand characters. -/
def Candidate.isStale (k : Candidate) (p : Place) : Bool :=
  k.place.line < p.line || k.place.index + 1024 < p.index

structure Layout where
  rest : List Char
  place : Place
  /-- Whether a collection in block style, or a key, may begin here. -/
  keyAllowed : Bool
  /-- The columns of the open collections in block style, the innermost first. -/
  blocks : List Nat
  /-- The candidate outside of any collection in flow style, or in the innermost one. -/
  candidate : Option Candidate
  /-- The candidates around each open collection in flow style, the innermost first. -/
  enclosing : List (Option Candidate)
  tokens : Array (Located Token)

namespace Layout

def ofText (text : List Char) : Layout := ⟨text, .start, true, [], none, [], #[]⟩

def column (s : Layout) : Nat := s.place.column

def inFlow (s : Layout) : Bool := !s.enclosing.isEmpty

def indent (s : Layout) : Nat := s.blocks.headD 0

def atIndicator (c : Char) (s : Layout) : Bool := s.rest.head? == some c && atGap s.rest.tail

def advance (count : Nat) (s : Layout) : Layout :=
  { s with rest := s.rest.drop count, place := s.place.after (s.rest.take count) }

def allowKey (allowed : Bool) (s : Layout) : Layout := { s with keyAllowed := allowed }

/-- Skips spaces, line breaks and comments of `text`, where `comment` tells whether a comment has
begun. A tab is skipped only where no key may begin, a byte order mark only at the start. -/
def skipFrom (comment : Bool) (s : Layout) : (text : List Char) → Layout
  | [] => { s with rest := [] }
  | c :: cs =>
    let next := { s with place := s.place.next c }
    if isBreak c then skipFrom false (next.allowKey (s.keyAllowed || !s.inFlow)) cs
    else if comment || c == '#' then skipFrom true next cs
    else if c = ' ' || (c == '\t' && (s.inFlow || !s.keyAllowed)) ||
        (c == '\ufeff' && s.place.index == 0) then
      skipFrom false next cs
    else { s with rest := c :: cs }

def skip (s : Layout) : Layout := s.skipFrom false s.rest

def add (t : Token) (s : Layout) : Layout :=
  { s with tokens := s.tokens.push ⟨s.place.position, t⟩ }

def addBefore (k : Candidate) (t : Token) (s : Layout) : Layout :=
  { s with tokens := s.tokens.insertIdxIfInBounds k.token ⟨k.place.position, t⟩ }

/-- What a candidate here would be. A candidate at the column of the innermost collection in block
style has to be a key. -/
def candidateHere (s : Layout) : Candidate :=
  ⟨s.tokens.size, s.place, !s.inFlow && s.indent == s.column⟩

def dropCandidate (s : Layout) : Option Layout :=
  if s.candidate.any (·.required) then none else some { s with candidate := none }

def noteCandidate (s : Layout) : Option Layout :=
  if s.keyAllowed then s.dropCandidate.map fun s => { s with candidate := s.candidateHere }
  else some s

def dropStale (s : Layout) : Option Layout :=
  let isStale (k : Candidate) : Bool := k.isStale s.place
  if (s.candidate :: s.enclosing).any fun k => k.any fun k => k.required && isStale k then none
  else some { s with
    candidate := s.candidate.filter (!isStale ·)
    enclosing := s.enclosing.map (·.filter (!isStale ·)) }

/-- Opens a collection in block style before a candidate, unless it lies in one at the same column
or further to the right. -/
def openBlock (start : Token) (k : Candidate) (s : Layout) : Layout :=
  if !s.inFlow && s.indent < k.place.column then
    { s with blocks := k.place.column :: s.blocks }.addBefore k start
  else s

def closeBlocks (column : Nat) (s : Layout) : Layout :=
  if s.inFlow then s
  else
    let closed := s.blocks.takeWhile (column < ·)
    closed.foldl (fun s _ => s.add .blockEnd) { s with blocks := s.blocks.drop closed.length }

def enterFlow (s : Layout) : Layout :=
  { s with candidate := none, enclosing := s.candidate :: s.enclosing }

def leaveFlow (s : Layout) : Layout :=
  match s.enclosing with
  | [] => s
  | k :: ks => { s with candidate := k, enclosing := ks }

/-- The tokens that get none before them any more. -/
def settled (s : Layout) : List (Located Token) :=
  let candidates := (s.candidate :: s.enclosing).filterMap id
  s.tokens.toList.take (candidates.foldl (fun n k => min n k.token) s.tokens.size)

end Layout

end YulPruner.Yaml
