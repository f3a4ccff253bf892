import YulPruner.Optimizer.Config
import YulPruner.Yaml.Grammar
import YulPruner.Yaml.Shape

namespace YulPruner

inductive Setting where
  | level
  | verify
  | disabled
deriving DecidableEq, Repr

namespace Setting

def all : List Setting := [.level, .verify, .disabled]

def key : Setting → String
  | .level => "level"
  | .verify => "verify_preconditions"
  | .disabled => "disabled_passes"

def ofKey? (key : String) : Option Setting := all.find? (·.key == key)

end Setting

inductive Slot where
  | whole
  | key
  | value (setting : Setting)
  | pass (index : Nat)
deriving DecidableEq, Repr

def Slot.path : Slot → String
  | .whole => ""
  | .key => ""
  | .value setting => setting.key ++ ": "
  | .pass index => Setting.disabled.key ++ "[" ++ toString index ++ "]: "

def Slot.expectation : Slot → String
  | .whole => "struct OptimizerConfig"
  | .key => "field identifier"
  | .value .level => "a YAML tag starting with '!'"
  | .value .verify => "a boolean"
  | .value .disabled => "a sequence"
  | .pass _ => "a string"

inductive ConfigFault where
  | unknownSetting (key : String)
  | repeatedSetting (setting : Setting)
  | unknownLevel (name : String)
  | wrongShape (slot : Slot) (found : Yaml.Shape)
deriving DecidableEq, Repr

def alternatives (names : List String) : String :=
  "expected one of " ++ ", ".intercalate (names.map fun name => "`" ++ name ++ "`")

def ConfigFault.message : ConfigFault → String
  | .unknownSetting key =>
    "unknown field `" ++ key ++ "`, " ++ alternatives (Setting.all.map Setting.key)
  | .repeatedSetting setting => "duplicate field `" ++ setting.key ++ "`"
  | .unknownLevel name =>
    (Slot.value .level).path ++ "unknown variant `" ++ name ++ "`, " ++
      alternatives (Level.all.map Level.name)
  | .wrongShape slot found =>
    slot.path ++ "invalid type: " ++ found.phrase ++ ", expected " ++ slot.expectation

inductive ConfigError where
  /-- The text is not YAML, or not one document of it. -/
  | malformed
  | invalid (position : Position) (fault : ConfigFault)
deriving DecidableEq, Repr

def placeText (p : Position) : String :=
  if p = .start then "" else " at line " ++ toString p.line ++ " column " ++ toString p.column

def ConfigError.message? : ConfigError → Option String
  | .malformed => none
  | .invalid p fault => some ("invalid optimizer configuration: " ++ fault.message ++ placeText p)

inductive Expecting where
  | document
  /-- A key, or the end of the mapping. -/
  | key
  | value (setting : Setting)
  /-- The name of a pass, or the end of the sequence. -/
  | pass
  | nothing
deriving DecidableEq, Repr

structure ConfigDraft where
  expecting : Expecting
  /-- Where the mapping starts. -/
  opening : Position
  level : Option Level
  verify : Option Bool
  disabled : Option (List String)
deriving DecidableEq, Repr

namespace ConfigDraft

def start : ConfigDraft := ⟨.document, .start, none, none, none⟩

def isSet (d : ConfigDraft) : Setting → Bool
  | .level => d.level.isSome
  | .verify => d.verify.isSome
  | .disabled => d.disabled.isSome

def config (d : ConfigDraft) : Config :=
  let standard : Config := {}
  ⟨d.level.getD standard.level, d.verify.getD standard.verify, d.disabled.getD standard.disabled⟩

def passes (d : ConfigDraft) : List String := d.disabled.getD []

def slot (d : ConfigDraft) : Slot :=
  match d.expecting with
  | .document | .nothing => .whole
  | .key => .key
  | .value setting => .value setting
  | .pass => .pass d.passes.length

abbrev Step := Except ConfigError ConfigDraft

def refuse (d : ConfigDraft) (p : Position) (found : Yaml.Shape) : Step :=
  .error (.invalid p (.wrongShape d.slot found))

/-- A key is refused, known or not, before its value is looked at. -/
def takeKey (d : ConfigDraft) (p : Position) (key : String) : Step :=
  match Setting.ofKey? key with
  | none => .error (.invalid p (.unknownSetting key))
  | some setting =>
    if d.isSet setting then .error (.invalid d.opening (.repeatedSetting setting))
    else .ok { d with expecting := .value setting }

/-- Names are taken by their text, whatever shape it has. A node left out counts as an empty
collection. -/
def takeScalar (d : ConfigDraft) (p : Position) (text : String) (style : Yaml.Style) : Step :=
  let refused := d.refuse p (.ofScalar text style)
  let leftOut := text = "" ∧ style = .plain
  match d.expecting with
  | .document => if leftOut then .ok { d with expecting := .nothing } else refused
  | .key => d.takeKey p text
  | .value .level =>
    match Level.ofName? text with
    | some level => .ok { d with expecting := .key, level := some level }
    | none => .error (.invalid p (.unknownLevel text))
  | .value .verify =>
    match Yaml.Shape.ofScalar text style with
    | .boolean b => .ok { d with expecting := .key, verify := some b }
    | _ => refused
  | .value .disabled =>
    if leftOut then .ok { d with expecting := .key, disabled := some [] } else refused
  | .pass => .ok { d with disabled := some (d.passes ++ [text]) }
  | .nothing => refused

def take (d : ConfigDraft) (e : Located Yaml.Event) : Step :=
  match e.value with
  | .scalar text style => d.takeScalar e.position text style
  | .sequenceStart =>
    if d.expecting = .value .disabled then .ok { d with expecting := .pass, disabled := some [] }
    else d.refuse e.position .sequence
  | .mappingStart =>
    if d.expecting = .document then .ok { d with expecting := .key, opening := e.position }
    else d.refuse e.position .map
  | .sequenceEnd => .ok { d with expecting := .key }
  | .mappingEnd => .ok { d with expecting := .nothing }

end ConfigDraft

/-- The configuration that a text spells. A fault in the text is reported if no event before it
is. -/
def Config.ofText (text : String) : Except ConfigError Config := do
  let document := Yaml.read text
  let d ← document.events.foldlM ConfigDraft.take .start
  if document.wellFormed then
    return d.config
  else
    throw .malformed

end YulPruner
