import YulPruner.Analysis.Precondition
import YulPruner.Naming
import YulPruner.Optimizer.Log
import YulPruner.Pruning.Prune

namespace YulPruner

inductive Sight where
  | name (x : Name)
  | used (b : Bool)
  | statements (n : Nat)
deriving DecidableEq, Repr

structure Note where
  pass : String
  action : String
  sight : Option Sight
deriving DecidableEq, Repr

structure Workspace where
  program : Program
  names : NameSupply
  log : List LogEntry
  notes : List Note

def Workspace.ofProgram (p : Program) : Workspace := ⟨p, .ofProgram p, [], []⟩

/-- A step on a workspace. What it did before it failed is kept. -/
abbrev PassM := EStateM Violation Workspace

namespace PassM

def log (entry : LogEntry) : PassM Unit :=
  modify fun w => { w with log := w.log ++ [entry] }

def note (n : Note) : PassM Unit :=
  modify fun w => { w with notes := w.notes ++ [n] }

def naming {α : Type} (draw : StateM NameSupply α) : PassM α := do
  let w ← get
  let (a, names) := draw w.names
  set { w with names }
  return a

def setProgram (p : Program) : PassM Unit :=
  modify fun w => { w with program := p }

def check (verification : Except Violation Unit) : PassM Unit :=
  match verification with
  | .ok () => return ()
  | .error v => throw v

end PassM

structure Pass where
  name : String
  /-- The least level at which the pass runs. -/
  minLevel : Level
  /-- The features without which the pass has no effect. -/
  required : List Feature
  /-- Tells whether the program changed. -/
  run : PassM Bool

def prunerName : String := "unused-function-parameter-pruner"

def runPruner : PassM Bool := do
  let p := (← get).program
  if p.prunable.isEmpty then
    PassM.log .nothingUnused
    return false
  else
    let pruning ← PassM.naming p.prune
    for f in pruning.functions do
      PassM.log (.split f.entry.function.name f.split.shim.name f.usage.mask)
    PassM.setProgram pruning.program
    PassM.log (.redirected pruning.functions.length pruning.callSites)
    return true

def pruner : Pass where
  name := prunerName
  minLevel := .moderate
  required := [.functions]
  run := runPruner

end YulPruner
