import YulPruner.Execution.Run

namespace YulPruner

inductive Job where
  | evaluate (e : Expr) (frame : Frame)
  | evaluateAll (es : List Expr) (frame : Frame)
  | call (name : Name) (arguments : List Word)
  | statement (s : Stmt) (frame : Frame)
  | block (b : Block) (frame : Frame)
  /-- The turns of a loop that are left. -/
  | turns (condition : Expr) (post body : Block) (frame : Frame)

abbrev Job.Answer : Job → Type
  | .evaluate .. | .evaluateAll .. | .call .. => List Word
  | .statement .. | .block .. | .turns .. => Flow × Frame

inductive Plan (α : Type) : Type 1 where
  | done (answer : Except Halt α)
  /-- One operation on the machine. -/
  | act {β : Type} (x : Exec β) (k : β → Plan α)
  /-- Another job. What follows is told if it halts. -/
  | sub (job : Job) (k : Except Halt job.Answer → Plan α)

namespace Plan

variable {α β : Type}

protected def bind : Plan α → (α → Plan β) → Plan β
  | .done (.ok a), k => k a
  | .done (.error h), _ => .done (.error h)
  | .act x l, k => .act x fun b => (l b).bind k
  | .sub job l, k => .sub job fun answer => (l answer).bind k

instance : Monad Plan where
  pure a := .done (.ok a)
  bind := Plan.bind

instance : MonadLift Exec Plan := ⟨fun x => .act x pure⟩

def ask (job : Job) : Plan job.Answer := .sub job .done

def deeper (job : Job) : Plan job.Answer :=
  .act (modify fun m => { m with depth := m.depth + 1 }) fun _ =>
    .sub job fun answer =>
      .act (modify fun m => { m with depth := m.depth - 1 }) fun _ => .done answer

end Plan

abbrev Routine := StateT Frame Plan

namespace Routine

def evaluate (e : Expr) : Routine (List Word) := do
  Plan.ask (.evaluate e (← get))

def evaluateSingle (e : Expr) : Routine Word := do
  single (← evaluate e)

def assign (names : List Name) (values : List Word) : Routine Unit := do
  if names.length = values.length then
    modify (·.setAll (names.zip values))
  else
    Exec.fail (.bindCount values.length names.length)

def statement (s : Stmt) : Routine Flow := fun frame => Plan.ask (.statement s frame)

def block (b : Block) : Routine Flow := fun frame => Plan.ask (.block b frame)

def turns (condition : Expr) (post body : Block) : Routine Flow := fun frame =>
  Plan.ask (.turns condition post body frame)

def turn (limits : Limits) (condition : Expr) (post body : Block) : Routine Flow := do
  if (← evaluateSingle condition) = 0 then
    return none
  match ← block body with
  | some .breakLoop => return none
  | some .leave => return some .leave
  | some .continueLoop | none => do
    if (← block post) = some .leave then
      return some .leave
    Exec.tick limits
    turns condition post body

end Routine

def Stmt.routine : Stmt → Routine Flow
  | .expression e => do
    let values ← Routine.evaluate e
    unless values.isEmpty do
      Exec.fail .discardedValues
    return none
  | .assignment targets value => do
    Routine.assign targets (← Routine.evaluate value)
    return none
  | .declaration names (some value) => do
    Routine.assign names (← Routine.evaluate value)
    return none
  | .declaration names none => do
    modify (·.setAll (names.map (·, 0)))
    return none
  | .function _ => return none
  | .conditional condition body => do
    if (← Routine.evaluateSingle condition) = 0 then
      return none
    else
      Routine.block body
  | .switch scrutinee cases => do
    match (Case.chosen? (← Routine.evaluateSingle scrutinee) cases).bind (cases[·]?) with
    | some c => Routine.block c.body
    | none => return none
  | .loop pre condition post body => do
    match ← Routine.block pre with
    | some j => return some j
    | none => Routine.turns condition post body
  | .jump j => return some j
  | .block body => Routine.block body

def Block.routine (limits : Limits) : List Stmt → Routine Flow
  | [] => return none
  | s :: ss => do
    Exec.tick limits
    match ← Routine.statement s with
    | some j => return some j
    | none => Routine.block ss

def Function.plan (f : Function) (arguments : List Word) : Plan (List Word) := do
  let (flow, frame) ← Plan.deeper (.block f.body (f.frame arguments))
  match flow with
  | some .breakLoop => (Exec.fail (.jumpOutOfFunction .breakLoop f.name) : Exec _)
  | some .continueLoop => (Exec.fail (.jumpOutOfFunction .continueLoop f.name) : Exec _)
  | some .leave | none => (f.returns.mapM frame.read : Exec _)

def Job.plan (limits : Limits) (functions : List Function) : (job : Job) → Plan job.Answer
  | .evaluate (.var x) frame => do return [← frame.read x]
  | .evaluate (.literal l) _ => return [l.value]
  | .evaluate (.call f arguments) frame => do
    Plan.ask (.call f (← Plan.ask (.evaluateAll arguments frame)))
  | .evaluateAll [] _ => return []
  | .evaluateAll (e :: es) frame => do
    let v ← single (← Plan.ask (.evaluate e frame))
    return v :: (← Plan.ask (.evaluateAll es frame))
  | .call name arguments =>
    match functions.findRev? (·.name == name) with
    | none => callBuiltin name arguments
    | some f => do
      unless f.parameters.length = arguments.length do
        (Exec.fail (.argumentCount f.name f.parameters.length arguments.length) : Exec Unit)
      if limits.depth ≤ (← (get : Exec Machine)).depth then
        (Exec.fail .callDepth : Exec Unit)
      f.plan arguments
  | .statement s frame => s.routine.run frame
  | .block b frame => (Block.routine limits b).run frame
  | .turns condition post body frame => (Routine.turn limits condition post body).run frame

abbrev Ending (α : Type) := EStateM.Result Halt Machine α

namespace Ending

variable {α : Type}

def answer : Ending α → Except Halt α
  | .ok a _ => .ok a
  | .error h _ => .error h

def machine : Ending α → Machine
  | .ok _ m | .error _ m => m

end Ending

/-- From the machine `m`, the plan comes to an end. The machines that its operations and those of the
jobs in it leave behind are listed in their order. -/
inductive Plan.Goes (limits : Limits) (functions : List Function) :
    {α : Type} → Plan α → Machine → List Machine → Ending α → Prop
  | ok {α : Type} {a : α} {m : Machine} : Goes limits functions (.done (.ok a)) m [] (.ok a m)
  | error {α : Type} {h : Halt} {m : Machine} :
      Goes limits functions (.done (.error h) : Plan α) m [] (.error h m)
  | act {α β : Type} {x : Exec β} {k : β → Plan α} {b : β} {m m' : Machine} {ms : List Machine}
      {e : Ending α} (hx : x m = .ok b m') (hk : Goes limits functions (k b) m' ms e) :
      Goes limits functions (.act x k) m (m' :: ms) e
  | halt {α β : Type} {x : Exec β} {k : β → Plan α} {h : Halt} {m m' : Machine}
      (hx : x m = .error h m') : Goes limits functions (.act x k) m [m'] (.error h m')
  | sub {α : Type} {job : Job} {k : Except Halt job.Answer → Plan α} {m : Machine}
      {ms ms' : List Machine} {e : Ending job.Answer} {e' : Ending α}
      (hjob : Goes limits functions (job.plan limits functions) m ms e)
      (hk : Goes limits functions (k e.answer) e.machine ms' e') :
      Goes limits functions (.sub job k) m (ms ++ ms') e'

def Job.Goes (limits : Limits) (functions : List Function) (job : Job) (m : Machine)
    (ms : List Machine) (e : Ending job.Answer) : Prop :=
  Plan.Goes limits functions (job.plan limits functions) m ms e

namespace Plan.Goes

variable {limits : Limits} {functions : List Function} {α β : Type} {p : Plan α} {m m' : Machine}
  {ms ms' : List Machine}

theorem unique {e e' : Ending α} (h : p.Goes limits functions m ms e)
    (h' : p.Goes limits functions m ms' e') : ms = ms' ∧ e = e' := by
  induction h generalizing ms' with
  | ok | error =>
      cases h'
      exact ⟨rfl, rfl⟩
  | act hx _ ih =>
      cases h' with
      | act hx' hk' =>
          cases hx.symm.trans hx'
          obtain ⟨rfl, rfl⟩ := ih hk'
          exact ⟨rfl, rfl⟩
      | halt hx' => cases hx.symm.trans hx'
  | halt hx =>
      cases h' with
      | act hx' _ => cases hx.symm.trans hx'
      | halt hx' =>
          cases hx.symm.trans hx'
          exact ⟨rfl, rfl⟩
  | sub _ _ ihjob ih =>
      cases h' with
      | sub hjob' hk' =>
          obtain ⟨rfl, rfl⟩ := ihjob hjob'
          obtain ⟨rfl, rfl⟩ := ih hk'
          exact ⟨rfl, rfl⟩

theorem bind_ok {k : α → Plan β} {a : α} {e : Ending β} (h : p.Goes limits functions m ms (.ok a m'))
    (hk : (k a).Goes limits functions m' ms' e) :
    (p >>= k).Goes limits functions m (ms ++ ms') e := by
  generalize hend : (EStateM.Result.ok a m' : Ending α) = e₀ at h
  induction h with
  | ok =>
      cases hend
      exact hk
  | error => cases hend
  | act hx _ ih => exact .act hx (ih hk hend)
  | halt => cases hend
  | sub hjob _ _ ih =>
      rw [List.append_assoc]
      exact .sub hjob (ih hk hend)

theorem bind_error {h : Halt} (hp : p.Goes limits functions m ms (.error h m')) (k : α → Plan β) :
    (p >>= k).Goes limits functions m ms (.error h m') := by
  generalize hend : (EStateM.Result.error h m' : Ending α) = e₀ at hp
  induction hp with
  | ok => cases hend
  | error =>
      cases hend
      exact .error
  | act hx _ ih => exact .act hx (ih k hend)
  | halt hx =>
      cases hend
      exact .halt hx
  | sub hjob _ _ ih => exact .sub hjob (ih k hend)

theorem of_bind {k : α → Plan β} {a : α} {e : Ending β}
    (hp : p.Goes limits functions m ms (.ok a m')) (h : (p >>= k).Goes limits functions m ms' e) :
    ∃ ms'', ms' = ms ++ ms'' ∧ (k a).Goes limits functions m' ms'' e := by
  generalize hend : (EStateM.Result.ok a m' : Ending α) = e₀ at hp
  induction hp generalizing ms' with
  | ok =>
      cases hend
      exact ⟨ms', rfl, h⟩
  | error | halt => cases hend
  | act hx _ ih =>
      cases h with
      | act hx' hk =>
          cases hx.symm.trans hx'
          obtain ⟨ms'', rfl, hrest⟩ := ih hk hend
          exact ⟨ms'', rfl, hrest⟩
      | halt hx' => cases hx.symm.trans hx'
  | sub hjob _ _ ih =>
      cases h with
      | sub hjob' hk =>
          obtain ⟨rfl, rfl⟩ := hjob.unique hjob'
          obtain ⟨ms'', rfl, hrest⟩ := ih hk hend
          exact ⟨ms'', (List.append_assoc _ _ _).symm, hrest⟩

theorem first {k : α → Plan β} {e : Ending β} (h : (p >>= k).Goes limits functions m ms e) :
    ∃ ms' e', p.Goes limits functions m ms' e' := by
  induction p generalizing m ms with
  | done answer =>
      cases answer with
      | ok a => exact ⟨_, _, .ok⟩
      | error halt => exact ⟨_, _, .error⟩
  | act x l ih =>
      cases h with
      | act hx hl =>
          obtain ⟨ms', e', hgoes⟩ := ih _ hl
          exact ⟨_, _, .act hx hgoes⟩
      | halt hx => exact ⟨_, _, .halt hx⟩
  | sub job l ih =>
      cases h with
      | sub hjob hl =>
          obtain ⟨ms', e', hgoes⟩ := ih _ hl
          exact ⟨_, _, .sub hjob hgoes⟩

theorem of_run_bind {r : Routine α} {k : α → Routine β} {a : α} {frame frame' : Frame}
    {e : Ending (β × Frame)} (hr : (r.run frame).Goes limits functions m ms (.ok (a, frame') m'))
    (h : ((r >>= k).run frame).Goes limits functions m ms' e) :
    ∃ ms'', ms' = ms ++ ms'' ∧ ((k a).run frame').Goes limits functions m' ms'' e :=
  hr.of_bind h

theorem done (e : Ending α) : (Plan.done e.answer).Goes limits functions e.machine [] e := by
  cases e with
  | ok => exact .ok
  | error => exact .error

theorem lift {x : Exec α} {e : Ending α} (hx : x m = e) :
    (liftM x : Plan α).Goes limits functions m [e.machine] e := by
  cases e with
  | ok a m' => exact .act hx .ok
  | error h m' => exact .halt hx

theorem ask {job : Job} {e : Ending job.Answer} (h : job.Goes limits functions m ms e) :
    (Plan.ask job).Goes limits functions m ms e := by
  rw [← List.append_nil ms]
  exact .sub h (done e)

theorem of_ask {job : Job} {e : Ending job.Answer}
    (h : (Plan.ask job).Goes limits functions m ms e) : job.Goes limits functions m ms e := by
  cases h with
  | sub hjob hk =>
      obtain ⟨rfl, rfl⟩ := hk.unique (done _)
      rwa [List.append_nil]

end Plan.Goes

end YulPruner
