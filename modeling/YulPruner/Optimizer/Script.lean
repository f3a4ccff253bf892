import YulPruner.Optimizer.Pass
import YulPruner.Syntax.Parser

namespace YulPruner

inductive Action where
  | newName (hint : Name)
  | isUsed (name : Name)
  /-- Appends the statements of the program that the text spells, if it spells one. -/
  | append (source : String)
  | clear
  /-- Fails as if a function of this name were not hoisted. -/
  | fail (name : Name)
deriving DecidableEq, Repr

def Action.label : Action → String
  | .newName _ => "new_name"
  | .isUsed _ => "is_used"
  | .append _ => "append"
  | .clear => "clear"
  | .fail _ => "fail"

def Program.append (p q : Program) : Program := ⟨p.root ++ q.root⟩

def replaceProgram (p : Program) : PassM Sight := do
  PassM.setProgram p
  return .statements p.root.length

def Action.run : Action → PassM Sight
  | .newName hint => do return .name (← PassM.naming (NameSupply.fresh hint))
  | .isUsed name => do return .used ((← get).names.isUsed name)
  | .append source => do
    let p := (← get).program
    match parse source with
    | .ok q => replaceProgram (p.append q)
    | .error _ => replaceProgram p
  | .clear => replaceProgram ⟨[]⟩
  | .fail name => throw (.notHoisted name)

structure Script where
  name : String
  minLevel : Level
  required : List Feature
  actions : List Action
  changed : Bool
deriving DecidableEq, Repr

def Script.run (s : Script) : PassM Bool := do
  for action in s.actions do
    let sight ← action.run
    PassM.note ⟨s.name, action.label, some sight⟩
  PassM.note ⟨s.name, "done", none⟩
  return s.changed

def Script.pass (s : Script) : Pass := ⟨s.name, s.minLevel, s.required, s.run⟩

end YulPruner
