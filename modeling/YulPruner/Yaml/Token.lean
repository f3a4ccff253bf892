import YulPruner.Text.Basic

namespace YulPruner.Yaml

inductive Style where
  | plain
  | quoted
deriving DecidableEq, Repr

inductive Token where
  | scalar (text : String) (style : Style)
  /-- The start of a sequence in block style. -/
  | blockSequence
  /-- The start of a mapping in block style. -/
  | blockMapping
  /-- The end of a collection in block style. -/
  | blockEnd
  /-- The dash before an item in block style. -/
  | dash
  | key
  /-- The colon before a value. -/
  | value
  | openBracket
  | closeBracket
  | openBrace
  | closeBrace
  | comma
  | documentStart
  | documentEnd
  | textEnd
deriving DecidableEq, Repr

inductive Event where
  | scalar (text : String) (style : Style)
  | sequenceStart
  | sequenceEnd
  | mappingStart
  | mappingEnd
deriving DecidableEq, Repr

def Event.empty : Event := .scalar "" .plain

/-- What a text holds. Of a text that is not well formed these are the events before the fault. -/
structure Document where
  events : List (Located Event)
  wellFormed : Bool
deriving DecidableEq, Repr

end YulPruner.Yaml
