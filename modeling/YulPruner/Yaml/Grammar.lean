import YulPruner.Yaml.Lexer

namespace YulPruner.Yaml

inductive Context where
  /-- The start of the document, or its only node. -/
  | start
  /-- The node of the document behind its start. -/
  | content
  /-- The end of the text. -/
  | finish
  /-- The next item of a sequence in block style, or its end. -/
  | blockItem
  /-- A node behind a dash. -/
  | blockItemNode
  /-- The next item of a sequence that stands at the column of the key before it. -/
  | alignedItem
  | alignedItemNode
  /-- The next key of a mapping in block style, or its end. -/
  | blockKey
  /-- The node of a key. -/
  | blockKeyNode
  /-- The colon behind a key, if there is one. -/
  | blockValue
  | blockValueNode
  /-- The next item of a sequence in flow style, or its end. -/
  | flowItem
  /-- A comma behind an item, or the end of the sequence. -/
  | flowItemEnd
  /-- The key of the single pair of a mapping that is an item in flow style. -/
  | singleKeyNode
  | singleValue
  | singleValueNode
  | singleEnd
  /-- The next key of a mapping in flow style, or its end. -/
  | flowKey
  /-- A comma behind a pair, or the end of the mapping. -/
  | flowPairEnd
  | flowKeyNode
  | flowValue
  | flowValueNode
  /-- What follows a key without a colon. -/
  | flowLoneKey
deriving DecidableEq, Repr

structure Outcome where
  events : List (Located Event)
  /-- The contexts behind the token, unless it does not fit. -/
  contexts? : Option (List Context)
deriving DecidableEq, Repr

namespace Outcome

def refused : Outcome := ⟨[], none⟩

def opens (contexts : List Context) : Outcome := ⟨[], some contexts⟩

def behind (t : Located Token) (e : Event) (o : Outcome) : Outcome :=
  { o with events := ⟨t.position, e⟩ :: o.events }

end Outcome

/-- A node that begins with `t`. A collection in block style may begin only where `block` tells so,
and one at the column of the key before it only where `aligned` does. -/
def takeNode (block aligned : Bool) (t : Located Token) (rest : List Context) : Outcome :=
  match t.value with
  | .scalar text style => (Outcome.opens rest).behind t (.scalar text style)
  | .openBracket => (Outcome.opens (.flowItem :: rest)).behind t .sequenceStart
  | .openBrace => (Outcome.opens (.flowKey :: rest)).behind t .mappingStart
  | .blockSequence =>
    if block then (Outcome.opens (.blockItem :: rest)).behind t .sequenceStart else .refused
  | .blockMapping =>
    if block then (Outcome.opens (.blockKey :: rest)).behind t .mappingStart else .refused
  | .dash =>
    if aligned then (Outcome.opens (.alignedItemNode :: rest)).behind t .sequenceStart
    else .refused
  | _ => .refused

def takeBlockItem (t : Located Token) (rest : List Context) : Outcome :=
  match t.value with
  | .dash => .opens (.blockItemNode :: rest)
  | .blockEnd => (Outcome.opens rest).behind t .sequenceEnd
  | _ => .refused

def takeBlockKey (t : Located Token) (rest : List Context) : Outcome :=
  match t.value with
  | .key => .opens (.blockKeyNode :: rest)
  | .blockEnd => (Outcome.opens rest).behind t .mappingEnd
  | _ => .refused

def takeBlockValue (t : Located Token) (rest : List Context) : Outcome :=
  if t.value = .value then .opens (.blockValueNode :: rest)
  else (takeBlockKey t rest).behind t .empty

def takeFlowItemEnd (t : Located Token) (rest : List Context) : Outcome :=
  match t.value with
  | .comma => .opens (.flowItem :: rest)
  | .closeBracket => (Outcome.opens rest).behind t .sequenceEnd
  | _ => .refused

def takeSingleEnd (t : Located Token) (rest : List Context) : Outcome :=
  (takeFlowItemEnd t rest).behind t .mappingEnd

def takeFlowPairEnd (t : Located Token) (rest : List Context) : Outcome :=
  match t.value with
  | .comma => .opens (.flowKey :: rest)
  | .closeBrace => (Outcome.opens rest).behind t .mappingEnd
  | _ => .refused

def takeFlowValue (t : Located Token) (rest : List Context) : Outcome :=
  if t.value = .value then .opens (.flowValueNode :: rest)
  else (takeFlowPairEnd t rest).behind t .empty

/-- Takes a token. A node that is left out shows at the token behind it. -/
def takeToken (t : Located Token) : List Context → Outcome
  | [] => .refused
  | context :: rest =>
    match context with
    | .start =>
      if t.value = .documentStart then .opens (.content :: rest)
      else if t.value = .textEnd then takeToken t rest
      else takeNode true false t rest
    | .content =>
      if t.value ∈ [.documentStart, .documentEnd, .textEnd] then (takeToken t rest).behind t .empty
      else takeNode true false t rest
    | .finish =>
      if t.value = .documentEnd then .opens (.finish :: rest)
      else if t.value = .textEnd then .opens rest
      else .refused
    | .blockItem => takeBlockItem t rest
    | .blockItemNode =>
      if t.value ∈ [.dash, .blockEnd] then (takeBlockItem t rest).behind t .empty
      else takeNode true false t (.blockItem :: rest)
    | .alignedItem =>
      if t.value = .dash then .opens (.alignedItemNode :: rest)
      else (takeToken t rest).behind t .sequenceEnd
    | .alignedItemNode =>
      if t.value = .dash then (Outcome.opens (.alignedItemNode :: rest)).behind t .empty
      else if t.value ∈ [.key, .value, .blockEnd] then
        ((takeToken t rest).behind t .sequenceEnd).behind t .empty
      else takeNode true false t (.alignedItem :: rest)
    | .blockKey => takeBlockKey t rest
    | .blockKeyNode =>
      if t.value ∈ [.key, .value, .blockEnd] then (takeBlockValue t rest).behind t .empty
      else takeNode true true t (.blockValue :: rest)
    | .blockValue => takeBlockValue t rest
    | .blockValueNode =>
      if t.value ∈ [.key, .value, .blockEnd] then (takeBlockKey t rest).behind t .empty
      else takeNode true true t (.blockKey :: rest)
    | .flowItemEnd => takeFlowItemEnd t rest
    | .flowItem =>
      if t.value = .key then (Outcome.opens (.singleKeyNode :: rest)).behind t .mappingStart
      else if t.value = .closeBracket then takeFlowItemEnd t rest
      else takeNode false false t (.flowItemEnd :: rest)
    | .singleKeyNode =>
      if t.value ∈ [.value, .comma, .closeBracket] then
        (Outcome.opens (.singleValue :: rest)).behind t .empty
      else takeNode false false t (.singleValue :: rest)
    | .singleValue =>
      if t.value = .value then .opens (.singleValueNode :: rest)
      else (takeSingleEnd t rest).behind t .empty
    | .singleValueNode =>
      if t.value ∈ [.comma, .closeBracket] then (takeSingleEnd t rest).behind t .empty
      else takeNode false false t (.singleEnd :: rest)
    | .singleEnd => takeSingleEnd t rest
    | .flowPairEnd => takeFlowPairEnd t rest
    | .flowKey =>
      if t.value = .key then .opens (.flowKeyNode :: rest)
      else if t.value = .closeBrace then takeFlowPairEnd t rest
      else takeNode false false t (.flowLoneKey :: rest)
    | .flowKeyNode =>
      if t.value ∈ [.value, .comma, .closeBrace] then (takeFlowValue t rest).behind t .empty
      else takeNode false false t (.flowValue :: rest)
    | .flowValue => takeFlowValue t rest
    | .flowValueNode =>
      if t.value ∈ [.comma, .closeBrace] then (takeFlowPairEnd t rest).behind t .empty
      else takeNode false false t (.flowPairEnd :: rest)
    | .flowLoneKey => (takeFlowPairEnd t rest).behind t .empty

def Document.ofTokens (contexts : List Context) : List (Located Token) → Document
  | [] => ⟨[], contexts.isEmpty⟩
  | t :: ts =>
    let o := takeToken t contexts
    match o.contexts? with
    | none => ⟨o.events, false⟩
    | some contexts =>
      let d := ofTokens contexts ts
      ⟨o.events ++ d.events, d.wellFormed⟩

/-- A text with a character that may not stand in it has no events at all. -/
def read (text : String) : Document :=
  let content := text.toList
  if content.all isAllowed then
    .ofTokens [.start, .finish] (lex (unifyBreaks content))
  else ⟨[], false⟩

end YulPruner.Yaml
