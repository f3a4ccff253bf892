import YulPruner.Optimizer.Run
import YulPruner.Syntax.Parser

namespace YulPruner

structure Session where
  program : Program
  names : NameSupply

abbrev SessionM := StateM Session

namespace Session

/-- Starts with the given names in use, or else with those of the program. -/
def start (p : Program) (used? : Option (List Name)) : Session :=
  ⟨p, match used? with
    | some used => .ofNames used
    | none => .ofProgram p⟩

def draw {α : Type} (naming : StateM NameSupply α) : SessionM α := do
  let s ← get
  let (a, names) := naming s.names
  set { s with names }
  return a

def setProgram (p : Program) : SessionM Unit :=
  modify fun s => { s with program := p }

def fresh (hint : Name) : SessionM Name := draw (NameSupply.fresh hint)

def reserve (x : Name) : SessionM Unit :=
  modify fun s => { s with names := s.names.reserve x }

def isUsed (x : Name) : SessionM Bool := do
  return (← get).names.isUsed x

def refresh : SessionM Unit :=
  modify fun s => { s with names := .ofProgram s.program }

def append (source : String) : SessionM (Except ParseError Nat) := do
  match parse source with
  | .ok q => do
    let root := (← get).program.root ++ q.root
    setProgram ⟨root⟩
    return .ok root.length
  | .error e => return .error e

def remove? (index : Nat) : SessionM (Option Stmt) := do
  let root := (← get).program.root
  setProgram ⟨root.eraseIdx index⟩
  return root[index]?

def perform (pass : Pass) : SessionM (Except Violation Bool) := do
  let s ← get
  match pass.run.run ⟨s.program, s.names, [], []⟩ with
  | .ok changed w => do
    set (Session.mk w.program w.names)
    return .ok changed
  | .error v w => do
    set (Session.mk w.program w.names)
    return .error v

/-- Runs the optimizer, which has names of its own. -/
def optimize (config : Config) : SessionM (Except Violation Bool) := do
  let outcome := (Optimizer.ofConfig config).optimize (← get).program
  setProgram outcome.workspace.program
  return outcome.result

/-- Splits a function at the top level and leaves the program as it is. Slots that are given
replace those of the analysis. -/
def split? (name : Name) (parameters? returns? : Option (List Usage)) :
    SessionM (Option (FunctionUsage × Split)) := do
  let p := (← get).program
  match p.function? name with
  | none => return none
  | some f => do
    let found := f.usage p
    let u : FunctionUsage :=
      ⟨parameters?.getD found.parameters, returns?.getD found.returns, found.forwarding⟩
    return some (u, ← draw (f.split u))

def redirect (r : Redirection) : SessionM Nat := do
  let p := (← get).program
  setProgram (p.redirect r)
  return p.redirected r

end Session

end YulPruner
