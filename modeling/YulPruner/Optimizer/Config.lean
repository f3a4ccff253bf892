namespace YulPruner

inductive Level where
  | none
  | minimal
  | moderate
  | aggressive
deriving DecidableEq, Repr

namespace Level

def all : List Level := [.none, .minimal, .moderate, .aggressive]

def rank : Level → Nat
  | .none => 0
  | .minimal => 1
  | .moderate => 2
  | .aggressive => 3

instance : LE Level := ⟨fun a b => a.rank ≤ b.rank⟩

instance : LT Level := ⟨fun a b => a.rank < b.rank⟩

instance (a b : Level) : Decidable (a ≤ b) := inferInstanceAs (Decidable (a.rank ≤ b.rank))

instance (a b : Level) : Decidable (a < b) := inferInstanceAs (Decidable (a.rank < b.rank))

def name : Level → String
  | .none => "none"
  | .minimal => "minimal"
  | .moderate => "moderate"
  | .aggressive => "aggressive"

def ofName? (name : String) : Option Level := all.find? (·.name == name)

def label : Level → String
  | .none => "None"
  | .minimal => "Minimal"
  | .moderate => "Moderate"
  | .aggressive => "Aggressive"

end Level

structure Config where
  level : Level := .moderate
  /-- Whether preconditions are verified before the first pass, and after the last one if anything
  changed. The default is that of a build with debug assertions; without them it is `false`. -/
  verify : Bool := true
  /-- The names of passes that are skipped. -/
  disabled : List String := []
deriving DecidableEq, Repr

end YulPruner
