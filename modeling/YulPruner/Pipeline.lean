import YulPruner.Execution.Run
import YulPruner.Optimizer.Run
import YulPruner.Syntax.Parser
import YulPruner.Syntax.Printer

namespace YulPruner

inductive PipelineError where
  | parse (e : ParseError)
  | optimize (v : Violation)
  | run (e : RunError)
deriving DecidableEq, Repr

def PipelineError.message : PipelineError → String
  | .parse e => "parse error: " ++ e.message
  | .optimize v => "optimizer error: " ++ v.message
  | .run e => e.message

def readProgram (source : String) : Except PipelineError Program :=
  (parse source).mapError .parse

def optimizeProgram (config : Config) (source : String) : Except PipelineError Program := do
  let outcome := (Optimizer.ofConfig config).optimize (← readProgram source)
  match outcome.result with
  | .ok _ => return outcome.workspace.program
  | .error v => throw (.optimize v)

def optimizeText (config : Config) (source : String) : Except PipelineError String :=
  (optimizeProgram config source).map Program.text

structure Comparison where
  before : Execution
  after : Execution

def Comparison.agrees (c : Comparison) : Bool := c.before.same c.after

/-- Executes the program of the text, and then what the default configuration makes of it. -/
def compareExecutions (source : String) : Except PipelineError Comparison := do
  let before ← ((← readProgram source).run {}).mapError .run
  let after ← ((← optimizeProgram {} source).run {}).mapError .run
  return ⟨before, after⟩

end YulPruner
