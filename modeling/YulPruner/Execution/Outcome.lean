import Std.Data.TreeMap
import YulPruner.Syntax.Basic

namespace YulPruner

inductive Event where
  | store (slot value : Word)
  | log (values : List Word)
  | revert (offset size : Word)
deriving DecidableEq, Repr

/-- The slots that have been written, in ascending order. Every other slot holds zero. -/
abbrev Storage := Std.TreeMap Word Word

structure Execution where
  events : List Event
  storage : Storage
  reverted : Bool

def Execution.same (a b : Execution) : Bool :=
  a.events == b.events && a.storage.toList == b.storage.toList && a.reverted == b.reverted

inductive RunError where
  | stepLimit
  | callDepth
  | undefinedVariable (name : Name)
  /-- Neither a function of the program nor a builtin with this number of arguments. -/
  | unknownFunction (name : Name) (passed : Nat)
  | argumentCount (name : Name) (expected passed : Nat)
  /-- As many values were given as the first number says, to as many variables as the second. -/
  | bindCount (values targets : Nat)
  | valueCount (values : Nat)
  | discardedValues
  /-- A jump left the body of a function without a loop to catch it. -/
  | jumpOutOfFunction (jump : Jump) (name : Name)
  | jumpAtTopLevel (jump : Jump)
deriving DecidableEq, Repr

def Jump.label : Jump → String
  | .breakLoop => "Break"
  | .continueLoop => "Continue"
  | .leave => "Leave"

def RunError.message : RunError → String
  | .stepLimit => "step limit exceeded"
  | .callDepth => "call depth exceeded"
  | .undefinedVariable x => "undefined variable `" ++ x ++ "`"
  | .unknownFunction f passed =>
    "unknown function `" ++ f ++ "` with " ++ toString passed ++ " argument(s)"
  | .argumentCount f expected passed =>
    "`" ++ f ++ "` expects " ++ toString expected ++ " argument(s), got " ++ toString passed
  | .bindCount values targets =>
    "cannot bind " ++ toString values ++ " value(s) to " ++ toString targets ++ " variable(s)"
  | .valueCount values => "expected one value, got " ++ toString values
  | .discardedValues => "expression statement produced values"
  | .jumpOutOfFunction j f => j.label ++ " outside of a loop in `" ++ f ++ "`"
  | .jumpAtTopLevel j => "unexpected " ++ j.label ++ " at top level"

end YulPruner
