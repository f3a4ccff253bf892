import YulPruner.Text.Legible
import YulPruner.Yaml.Token
import YulPruner.Yaml.Number

namespace YulPruner.Yaml

inductive Shape where
  | null
  | boolean (value : Bool)
  | integer (value : Int)
  | floating (value : Floating)
  | string (text : String)
  | sequence
  | map
deriving DecidableEq, Repr

def boolean? (text : String) : Option Bool :=
  if text ∈ ["true", "True", "TRUE"] then some true
  else if text ∈ ["false", "False", "FALSE"] then some false
  else none

def isNull (text : String) : Bool := text ∈ ["", "~", "null", "Null", "NULL"]

/-- The first that the text spells, in this order. -/
def Shape.ofPlain (text : String) : Shape :=
  if isNull text then .null
  else if let some b := boolean? text then .boolean b
  else if let some n := integer? text.toList then .integer n
  else if let some x := floating? text.toList then .floating x
  else .string text

def Shape.ofScalar (text : String) : Style → Shape
  | .plain => .ofPlain text
  | .quoted => .string text

def integerSuffix : Int → String
  | .ofNat n => if n < 1 <<< 64 then "" else " as u128"
  | .negSucc n => if n < 1 <<< 63 then "" else " as i128"

def Shape.phrase : Shape → String
  | .null => "unit value"
  | .boolean b => "boolean `" ++ toString b ++ "`"
  | .integer n => "integer `" ++ toString n ++ "`" ++ integerSuffix n
  | .floating x => "floating point `" ++ x.text ++ "`"
  | .string s => "string " ++ legible s
  | .sequence => "sequence"
  | .map => "map"

end YulPruner.Yaml
