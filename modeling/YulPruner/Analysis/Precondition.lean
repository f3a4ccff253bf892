import YulPruner.Syntax.Items

namespace YulPruner

inductive Violation where
  | duplicateFunction (name : Name)
  | notHoisted (name : Name)
  /-- A call does not fit the first definition of its callee. -/
  | arityMismatch (site : CallSite) (parameters returns : Nat)
deriving DecidableEq, Repr

def Violation.message : Violation → String
  | .duplicateFunction f => "function `" ++ f ++ "` is defined more than once"
  | .notHoisted f => "function `" ++ f ++ "` is not hoisted to the top level"
  | .arityMismatch site parameters returns =>
    "call to `" ++ site.callee ++ "` passes " ++ toString site.passed ++
      " argument(s) and binds " ++ toString site.bound ++ " result(s), but the definition takes " ++
      toString parameters ++ " and returns " ++ toString returns

def nested? (b : Block) : Option Violation :=
  (Block.definitions b).head?.map fun f => .notHoisted f.name

/-- The first definition that repeats a name in `seen` or an earlier one, or is not at the top
level. -/
def hoistingViolation? (seen : List Name) : List Stmt → Option Violation
  | [] => none
  | .function f :: ss =>
    if f.name ∈ seen then some (.duplicateFunction f.name)
    else (nested? f.body).or (hoistingViolation? (f.name :: seen) ss)
  | s :: ss => (nested? [s]).or (hoistingViolation? seen ss)

def Program.arityViolation? (p : Program) (site : CallSite) : Option Violation :=
  match p.function? site.callee with
  | none => none
  | some f =>
    if f.parameters.length = site.passed ∧ f.returns.length = site.bound then none
    else some (.arityMismatch site f.parameters.length f.returns.length)

def report : Option Violation → Except Violation Unit
  | none => .ok ()
  | some v => .error v

def Program.verifyHoisting (p : Program) : Except Violation Unit :=
  report (hoistingViolation? [] p.root)

def Program.verifyArity (p : Program) : Except Violation Unit :=
  report ((Block.callSites p.root).findSome? p.arityViolation?)

def Program.verify (p : Program) : Except Violation Unit := do
  p.verifyHoisting
  p.verifyArity

end YulPruner
