import YulPruner.Text.Basic
import YulPruner.Yaml.Character

namespace YulPruner.Yaml

inductive Gap where
  | spaces (text : List Char)
  /-- A line break, and further ones. -/
  | folded (first : Char) (further : List Char)
  /-- A line break that is escaped, and further ones. -/
  | joined (further : List Char)
deriving DecidableEq, Repr

namespace Gap

def none : Gap := .spaces []

def space (c : Char) : Gap → Gap
  | .spaces text => .spaces (text ++ [c])
  | gap => gap

def lineBreak (c : Char) : Gap → Gap
  | .spaces _ => .folded c []
  | .folded first further => .folded first (further ++ [c])
  | .joined further => .joined (further ++ [c])

def hasBreak : Gap → Bool
  | .spaces _ => false
  | _ => true

def text : Gap → List Char
  | .spaces text => text
  | .folded first further =>
    if first ≠ '\n' then first :: further
    else if further = [] then [' ']
    else further
  | .joined further => further

end Gap

structure Extent where
  text : List Char
  rest : List Char
  place : Place
  /-- Whether a line break was passed behind the last word. -/
  brokenOff : Bool
deriving DecidableEq, Repr

def Extent.push (text : List Char) (e : Extent) : Extent := { e with text := text ++ e.text }

def isFlowMark (c : Char) : Bool := c ∈ [',', '[', ']', '\x7b', '\x7d']

/-- Whether a plain scalar ends before a word that begins here. Outside of flow collections the
word must not lie left of the column `least`. -/
def plainEndsBefore (flow : Bool) (least : Nat) (p : Place) (gap : Gap) (text : List Char) :
    Bool :=
  gap ≠ .none &&
    ((!flow && gap.hasBreak && p.column < least) || (p.column == 1 && atAnyMarker text) ||
      text.head? == some '#')

def plainFrom (flow : Bool) (least : Nat) (p : Place) (gap : Gap) : List Char → Option Extent
  | [] => some ⟨[], [], p, gap.hasBreak⟩
  | c :: cs =>
    if isBreak c then plainFrom flow least (p.next c) (gap.lineBreak c) cs
    else if isSpace c then
      if c = '\t' ∧ gap.hasBreak ∧ p.column < least then none
      else plainFrom flow least (p.next c) (gap.space c) cs
    else if plainEndsBefore flow least p gap (c :: cs) then some ⟨[], c :: cs, p, gap.hasBreak⟩
    else if flow ∧ c = ':' ∧ cs.head?.any fun d => isFlowMark d || d == '?' then none
    else if (c = ':' ∧ atGap cs) ∨ (flow ∧ isFlowMark c) then some ⟨[], c :: cs, p, gap.hasBreak⟩
    else (plainFrom flow least (p.next c) .none cs).map (·.push (gap.text ++ [c]))

def startsPlain (flow : Bool) : List Char → Bool
  | [] => false
  | c :: cs =>
    if c ∈ ['-', '?', ':'] then (c == '-' || !flow) && !atGap cs
    else !atGap [c] && c ∉ "#&*!|>'\"%@\x60".toList && !isFlowMark c

def hexEscape? (count : Nat) (text : List Char) : Option Char :=
  let digits := text.take count
  let code := hexValue digits
  if digits.length = count ∧ digits.all isHexDigit ∧ code.isValidChar then some (Char.ofNat code)
  else none

def escape? : List Char → Option (Char × Nat)
  | [] => none
  | c :: cs =>
    match c with
    | '0' => some ('\x00', 1)
    | 'a' => some ('\x07', 1)
    | 'b' => some ('\x08', 1)
    | 't' => some ('\t', 1)
    | '\t' => some ('\t', 1)
    | 'n' => some ('\n', 1)
    | 'v' => some ('\x0b', 1)
    | 'f' => some ('\x0c', 1)
    | 'r' => some ('\r', 1)
    | 'e' => some ('\x1b', 1)
    | ' ' => some (' ', 1)
    | '"' => some ('"', 1)
    | '/' => some ('/', 1)
    | '\\' => some ('\\', 1)
    | 'N' => some ('\u0085', 1)
    | '_' => some ('\u00a0', 1)
    | 'L' => some ('\u2028', 1)
    | 'P' => some ('\u2029', 1)
    | 'x' => (hexEscape? 2 cs).map (·, 3)
    | 'u' => (hexEscape? 4 cs).map (·, 5)
    | 'U' => (hexEscape? 8 cs).map (·, 9)
    | _ => none

/-- The rest of a quoted scalar behind its opening quote. In single quotes a quote is written
twice; in double quotes a backslash escapes. `covered` counts the characters that the last step
covers already. -/
def quotedFrom (quote : Char) (p : Place) (gap : Gap) :
    (covered : Nat) → List Char → Option Extent
  | _, [] => none
  | covered + 1, c :: cs => quotedFrom quote (p.next c) gap covered cs
  | 0, c :: cs =>
    if isBreak c then quotedFrom quote (p.next c) (gap.lineBreak c) 0 cs
    else if isSpace c then quotedFrom quote (p.next c) (gap.space c) 0 cs
    else if p.column = 1 ∧ atAnyMarker (c :: cs) then none
    else if c = quote then
      if quote = '\'' ∧ cs.head? = some quote then
        (quotedFrom quote (p.next c) .none 1 cs).map (·.push (gap.text ++ [c]))
      else some ⟨gap.text, cs, p.next c, false⟩
    else if quote = '"' ∧ c = '\\' then
      if cs.head?.any isBreak then
        (quotedFrom quote (p.next c) (.joined []) 1 cs).map (·.push gap.text)
      else match escape? cs with
        | some (value, width) =>
          (quotedFrom quote (p.next c) .none width cs).map (·.push (gap.text ++ [value]))
        | none => none
    else (quotedFrom quote (p.next c) .none 0 cs).map (·.push (gap.text ++ [c]))

/-- The plain scalar that begins here. It goes on over lines that are not indented less than the
column `least`. -/
def plain? (flow : Bool) (least : Nat) (p : Place) (text : List Char) : Option Extent :=
  if startsPlain flow text then plainFrom flow least p .none text else none

def quoted? (quote : Char) (p : Place) (text : List Char) : Option Extent :=
  quotedFrom quote p .none 0 text

end YulPruner.Yaml
