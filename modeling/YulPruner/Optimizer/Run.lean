import YulPruner.Optimizer.Pass

namespace YulPruner

structure Optimizer where
  config : Config
  passes : List Pass

namespace Optimizer

/-- The optimizer whose only pass is the pruner. -/
def ofConfig (config : Config) : Optimizer := ⟨config, [pruner]⟩

def addPass (o : Optimizer) (pass : Pass) : Optimizer := { o with passes := o.passes ++ [pass] }

def passNames (o : Optimizer) : List String := o.passes.map Pass.name

def runPass (config : Config) (pass : Pass) : PassM Bool := do
  let present := (← get).program.features
  if config.level < pass.minLevel then
    PassM.log (.belowLevel pass.name)
    return false
  else if pass.name ∈ config.disabled then
    PassM.log (.passDisabled pass.name)
    return false
  else if ∃ k ∈ pass.required, k ∉ present then
    PassM.log (.featuresMissing pass.name present)
    return false
  else
    let changed ← pass.run
    PassM.log (.finished pass.name changed)
    return changed

def runPasses (config : Config) : List Pass → PassM (List String)
  | [] => return []
  | pass :: passes => do
    let changed ← runPass config pass
    let applied ← runPasses config passes
    return if changed then pass.name :: applied else applied

def verify (config : Config) : PassM Unit := do
  if config.verify then
    PassM.check (← get).program.verify

/-- Runs every enabled pass once, and tells whether the program changed. -/
def optimizeM (o : Optimizer) : PassM Bool := do
  if o.config.level = .none then
    PassM.log .disabled
    return false
  else
    verify o.config
    let applied ← runPasses o.config o.passes
    let changed := !applied.isEmpty
    if changed then
      verify o.config
    PassM.log (.complete o.config.level changed applied)
    return changed

/-- A run of the optimizer: whether the program changed or what stopped the run, and all that the
run left behind. -/
structure Outcome where
  result : Except Violation Bool
  workspace : Workspace

def optimize (o : Optimizer) (p : Program) : Outcome :=
  match o.optimizeM.run (.ofProgram p) with
  | .ok changed w => ⟨.ok changed, w⟩
  | .error v w => ⟨.error v, w⟩

def optimizeTimes (o : Optimizer) : Nat → Program → List Outcome
  | 0, _ => []
  | n + 1, p =>
    let outcome := o.optimize p
    outcome :: optimizeTimes o n outcome.workspace.program

end Optimizer

end YulPruner
