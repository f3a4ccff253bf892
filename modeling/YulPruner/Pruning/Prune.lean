import YulPruner.Analysis.Usage
import YulPruner.Naming
import YulPruner.Pruning.Redirect

namespace YulPruner

structure Split where
  reduced : Function
  shim : Function

def selectUsed (names : List Name) (slots : List Usage) : List Name :=
  ((names.zip slots).filter (·.2 = .used)).map (·.1)

def Function.reduce (f : Function) (u : FunctionUsage) : Function :=
  { f with
    parameters := selectUsed f.parameters u.parameters
    returns := selectUsed f.returns u.returns }

def forwardingBody (callee : Name) (arguments targets : List Name) : Block :=
  let call := Expr.call callee (arguments.map .var)
  if targets.isEmpty then [.expression call] else [.assignment targets call]

/-- Draws the name of the shim first, then its parameters and its return variables. -/
def Function.split (f : Function) (u : FunctionUsage) : StateM NameSupply Split := do
  let name ← NameSupply.fresh f.name
  let parameters ← f.parameters.mapM NameSupply.fresh
  let returns ← f.returns.mapM NameSupply.fresh
  let body :=
    forwardingBody f.name (selectUsed parameters u.parameters) (selectUsed returns u.returns)
  return ⟨f.reduce u, ⟨name, parameters, returns, body⟩⟩

structure PrunedFunction where
  entry : IndexEntry
  usage : FunctionUsage
  split : Split

def PrunedFunction.redirection (f : PrunedFunction) : Name × Name :=
  (f.entry.function.name, f.split.shim.name)

structure Pruning where
  functions : List PrunedFunction
  program : Program
  /-- How many calls were redirected. -/
  callSites : Nat

/-- Puts the reduced function in the place of the definition, and the shim behind it. -/
def expandSplits (functions : List PrunedFunction) (root : Block) : Block :=
  root.zipIdx.flatMap fun (s, position) =>
    match functions.find? (·.entry.position == position) with
    | some f => [.function f.split.reduced, .function f.split.shim]
    | none => [s]

def redirectionOf (functions : List PrunedFunction) : Redirection where
  targets := functions.map PrunedFunction.redirection
  excluded := functions.map (·.split.shim.name)

def Program.splitPrunable (p : Program) : StateM NameSupply (List PrunedFunction) :=
  p.prunable.mapM fun (e, u) => do
    return ⟨e, u, ← e.function.split u⟩

def Program.prune (p : Program) : StateM NameSupply Pruning := do
  let functions ← p.splitPrunable
  let expanded : Program := ⟨expandSplits functions p.root⟩
  let r := redirectionOf functions
  return ⟨functions, expanded.redirect r, expanded.redirected r⟩

end YulPruner
