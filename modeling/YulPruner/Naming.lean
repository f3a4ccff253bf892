import YulPruner.Syntax.Items

namespace YulPruner

structure NameSupply where
  /-- Names in use that the supply did not issue. -/
  reserved : List Name
  /-- Names that the supply issued, the newest first. -/
  issued : List Name
  /-- Where the search for a number begins, per hint. The first entry of a hint counts, and every
  smaller number makes a name in use. -/
  starts : List (Name × Nat)

def numbered (hint : Name) (n : Nat) : Name := hint ++ "_" ++ toString n

namespace NameSupply

def ofNames (names : List Name) : NameSupply := ⟨names, [], []⟩

def ofProgram (p : Program) : NameSupply := ofNames p.names

def used (s : NameSupply) : List Name := s.issued ++ s.reserved

def isUsed (s : NameSupply) (x : Name) : Bool := x ∈ s.used

def reserve (s : NameSupply) (x : Name) : NameSupply := { s with reserved := x :: s.reserved }

def start (s : NameSupply) (hint : Name) : Nat := (s.starts.lookup hint).getD 1

/-- The first number from the start on that makes a name not in use. Of as many numbers as there
are names in use, and one more, some number does. -/
def number (s : NameSupply) (hint : Name) : Nat :=
  let first := s.start hint
  ((List.range' first (s.used.length + 1)).find? fun n => numbered hint n ∉ s.used).getD first

def fresh (hint : Name) : StateM NameSupply Name := fun s =>
  let n := s.number hint
  let x := numbered hint n
  (x, { s with issued := x :: s.issued, starts := (hint, n + 1) :: s.starts })

end NameSupply

end YulPruner
