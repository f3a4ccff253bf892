import YulPruner.Execution.Outcome

namespace YulPruner

/-- A limit of `2 ^ 64 - 1` steps or more is out of reach of the counter. It bounds the turns of a loop
all the same, without which a run under such a limit need not end. -/
structure Limits where
  steps : Nat := 100000
  depth : Nat := 256
deriving DecidableEq, Repr

abbrev Count := BitVec 64

structure Machine where
  events : Array Event
  storage : Storage
  /-- The statements begun and the turns of loops ended so far. -/
  steps : Count
  /-- The calls that are under way. -/
  depth : Nat

def Machine.start : Machine := ⟨#[], ∅, 0, 0⟩

def Machine.execution (m : Machine) (reverted : Bool) : Execution :=
  ⟨m.events.toList, m.storage, reverted⟩

inductive Halt where
  | reverted
  | failed (e : RunError)
deriving DecidableEq, Repr

abbrev Exec := EStateM Halt Machine

namespace Exec

def fail {α : Type} (e : RunError) : Exec α := throw (.failed e)

def emit (e : Event) : Exec Unit :=
  modify fun m => { m with events := m.events.push e }

def tick (limits : Limits) : Exec Unit := do
  modify fun m => { m with steps := m.steps + 1 }
  if limits.steps < (← get).steps.toNat then
    fail .stepLimit

/-- Runs `x` one call deeper. The depth is restored however `x` ends. -/
def deeper {α : Type} (x : Exec α) : Exec α := fun m =>
  match x { m with depth := m.depth + 1 } with
  | .ok a m' => .ok a { m' with depth := m'.depth - 1 }
  | .error e m' => .error e { m' with depth := m'.depth - 1 }

end Exec

abbrev Frame := List (Name × Word)

namespace Frame

def get? (frame : Frame) (x : Name) : Option Word := frame.lookup x

def set (x : Name) (v : Word) : Frame → Frame
  | [] => [(x, v)]
  | (y, w) :: rest => if y = x then (x, v) :: rest else (y, w) :: set x v rest

def setAll (frame : Frame) (values : List (Name × Word)) : Frame :=
  values.foldl (fun frame (x, v) => set x v frame) frame

def read (frame : Frame) (x : Name) : Exec Word :=
  match frame.get? x with
  | some v => return v
  | none => Exec.fail (.undefinedVariable x)

end Frame

end YulPruner
