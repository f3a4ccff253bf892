import YulPruner.Execution.Builtin
import YulPruner.Syntax.Items

namespace YulPruner

abbrev Caller := Name → List Word → Exec (List Word)

def single : List Word → Exec Word
  | [v] => return v
  | vs => Exec.fail (.valueCount vs.length)

mutual

def Expr.evaluate (call : Caller) (frame : Frame) : Expr → Exec (List Word)
  | .var x => do return [← frame.read x]
  | .literal l => return [l.value]
  | .call f arguments => do call f (← Expr.evaluateAll call frame arguments)
termination_by structural e => e

def Expr.evaluateAll (call : Caller) (frame : Frame) : List Expr → Exec (List Word)
  | [] => return []
  | e :: es => do
    let v ← single (← e.evaluate call frame)
    return v :: (← Expr.evaluateAll call frame es)
termination_by structural es => es

end

/-- The jump with which a statement ends, if it does not end normally. -/
abbrev Flow := Option Jump

/-- A computation that may change the variables of the call at hand. -/
abbrev Run := StateT Frame Exec

namespace Run

def evaluate (call : Caller) (e : Expr) : Run (List Word) := do
  e.evaluate call (← get)

def evaluateSingle (call : Caller) (e : Expr) : Run Word := do
  single (← evaluate call e)

def assign (names : List Name) (values : List Word) : Run Unit := do
  if names.length = values.length then
    modify (·.setAll (names.zip values))
  else
    Exec.fail (.bindCount values.length names.length)

/-- The turns of a loop, at most as many as `bound` says. -/
def turns (limits : Limits) (condition : Run Word) (body post : Run Flow) : (bound : Nat) → Run Flow
  | 0 => Exec.fail .stepLimit
  | bound + 1 => do
    if (← condition) = 0 then
      return none
    match ← body with
    | some .breakLoop => return none
    | some .leave => return some .leave
    | some .continueLoop | none => do
      if (← post) = some .leave then
        return some .leave
      Exec.tick limits
      turns limits condition body post bound

end Run

/-- The place of the arm that is taken: the first one with the value of the selector, or else the
first default. -/
def Case.chosen? (selector : Word) (cases : List Case) : Option Nat :=
  (cases.findIdx? fun c => c.value.any (·.value == selector)) <|>
    cases.findIdx? fun c => c.value.isNone

mutual

def Stmt.run (limits : Limits) (call : Caller) : Stmt → Run Flow
  | .expression e => do
    let values ← Run.evaluate call e
    unless values.isEmpty do
      Exec.fail .discardedValues
    return none
  | .assignment targets value => do
    Run.assign targets (← Run.evaluate call value)
    return none
  | .declaration names (some value) => do
    Run.assign names (← Run.evaluate call value)
    return none
  | .declaration names none => do
    modify (·.setAll (names.map (·, 0)))
    return none
  | .function _ => return none
  | .conditional condition body => do
    if (← Run.evaluateSingle call condition) = 0 then
      return none
    else
      Block.run limits call body
  | .switch scrutinee cases => do
    match Case.chosen? (← Run.evaluateSingle call scrutinee) cases with
    | some i => Case.run limits call cases i
    | none => return none
  | .loop pre condition post body => do
    match ← Block.run limits call pre with
    | some j => return some j
    | none =>
      Run.turns limits (Run.evaluateSingle call condition) (Block.run limits call body)
        (Block.run limits call post) (limits.steps + 1)
  | .jump j => return some j
  | .block body => Block.run limits call body
termination_by structural s => s

/-- Each statement costs a step. A jump skips the statements behind it. -/
def Block.run (limits : Limits) (call : Caller) : List Stmt → Run Flow
  | [] => return none
  | s :: ss => do
    Exec.tick limits
    match ← s.run limits call with
    | some j => return some j
    | none => Block.run limits call ss
termination_by structural ss => ss

def Case.run (limits : Limits) (call : Caller) : List (CaseOf (List Stmt)) → Nat → Run Flow
  | [], _ => return none
  | ⟨_, body⟩ :: _, 0 => Block.run limits call body
  | ⟨_, _⟩ :: cases, i + 1 => Case.run limits call cases i
termination_by structural cases => cases

end

def Function.frame (f : Function) (arguments : List Word) : Frame :=
  (Frame.setAll [] (f.parameters.zip arguments)).setAll (f.returns.map (·, 0))

def Function.apply (limits : Limits) (call : Caller) (f : Function) (arguments : List Word) :
    Exec (List Word) := do
  let (flow, frame) ← Exec.deeper ((Block.run limits call f.body).run (f.frame arguments))
  match flow with
  | some .breakLoop => Exec.fail (.jumpOutOfFunction .breakLoop f.name)
  | some .continueLoop => Exec.fail (.jumpOutOfFunction .continueLoop f.name)
  | some .leave | none => f.returns.mapM frame.read

/-- Calls a function of the program through `apply`, or else a builtin. Of several definitions of
a name the last one counts, wherever it stands. -/
def dispatch (limits : Limits) (functions : List Function)
    (apply : Function → List Word → Exec (List Word)) : Caller := fun name arguments =>
  match functions.findRev? (·.name == name) with
  | none => callBuiltin name arguments
  | some f => do
    unless f.parameters.length = arguments.length do
      Exec.fail (.argumentCount f.name f.parameters.length arguments.length)
    if limits.depth ≤ (← get).depth then
      Exec.fail .callDepth
    apply f arguments

/-- Calls a function, inside which further calls may be nested as deep as `room` says. -/
def invoke (limits : Limits) (functions : List Function) : (room : Nat) → Caller
  | 0 => dispatch limits functions fun _ _ => Exec.fail .callDepth
  | room + 1 =>
    dispatch limits functions fun f arguments =>
      f.apply limits (invoke limits functions room) arguments

def Program.run (p : Program) (limits : Limits) : Except RunError Execution :=
  let call := invoke limits (Block.definitions p.root) limits.depth
  match ((Block.run limits call p.root).run []).run .start with
  | .ok (none, _) m => .ok (m.execution false)
  | .ok (some j, _) _ => .error (.jumpAtTopLevel j)
  | .error .reverted m => .ok (m.execution true)
  | .error (.failed e) _ => .error e

end YulPruner
