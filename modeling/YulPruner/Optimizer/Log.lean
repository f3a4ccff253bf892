import YulPruner.Optimizer.Config
import YulPruner.Syntax.Features
import YulPruner.Text.Legible

namespace YulPruner

inductive LogEntry where
  | disabled
  | belowLevel (pass : String)
  | passDisabled (pass : String)
  | featuresMissing (pass : String) (present : List Feature)
  | nothingUnused
  | split (function shim : Name) (mask : String)
  | redirected (functions callSites : Nat)
  | finished (pass : String) (changed : Bool)
  | complete (level : Level) (changed : Bool) (applied : List String)
deriving DecidableEq, Repr

namespace LogEntry

def severity : LogEntry → String
  | .belowLevel _ | .passDisabled _ | .featuresMissing _ _ | .nothingUnused => "TRACE"
  | .disabled | .split _ _ _ | .redirected _ _ | .finished _ _ => "DEBUG"
  | .complete _ _ _ => "INFO"

def message : LogEntry → String
  | .disabled => "optimisation disabled"
  | .belowLevel _ => "below minimum level, skipping"
  | .passDisabled _ => "disabled by configuration, skipping"
  | .featuresMissing _ _ => "required features missing, skipping"
  | .nothingUnused => "no function has unused parameters or return variables"
  | .split _ _ _ => "pruning unused function slots"
  | .redirected _ _ => "redirected call sites to shims"
  | .finished _ _ => "pass finished"
  | .complete _ _ _ => "optimisation run complete"

def featureText (present : List Feature) : String :=
  let content := if present.isEmpty then "0x0" else " | ".intercalate (present.map Feature.label)
  "AstFeatures(" ++ content ++ ")"

def listText (items : List String) : String :=
  "[" ++ ", ".intercalate (items.map legible) ++ "]"

def fields : LogEntry → List (String × String)
  | .disabled => []
  | .belowLevel pass => [("pass", pass)]
  | .passDisabled pass => [("pass", pass)]
  | .featuresMissing pass present => [("pass", pass), ("features", featureText present)]
  | .nothingUnused => []
  | .split function shim mask => [("function", function), ("shim", shim), ("slots", mask)]
  | .redirected functions callSites =>
    [("functions", toString functions), ("call_sites", toString callSites)]
  | .finished pass changed => [("pass", pass), ("changed", toString changed)]
  | .complete level changed applied =>
    [("level", level.label), ("changed", toString changed), ("passes", listText applied)]

end LogEntry

end YulPruner
