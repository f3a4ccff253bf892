import YulPruner.Syntax.Items

namespace YulPruner

inductive Feature where
  | functions
  | calls
  | loops
  | switches
  | conditionals
deriving DecidableEq, Repr

def Feature.all : List Feature := [.functions, .calls, .loops, .switches, .conditionals]

def Feature.bit : Feature → Nat
  | .functions => 0
  | .calls => 1
  | .loops => 2
  | .switches => 3
  | .conditionals => 4

def Feature.label : Feature → String
  | .functions => "HAS_FUNCTIONS"
  | .calls => "HAS_CALLS"
  | .loops => "HAS_LOOPS"
  | .switches => "HAS_SWITCH"
  | .conditionals => "HAS_CONDITIONALS"

def Item.features : Item → List Feature
  | .definition _ => [.functions]
  | .conditional => [.conditionals]
  | .switch => [.switches]
  | .loop => [.loops]
  | .value e bound => (e.callSites bound).map fun _ => .calls
  | _ => []

def Program.features (p : Program) : List Feature :=
  let found := (Block.items p.root).flatMap Item.features
  Feature.all.filter (· ∈ found)

def featureBits (features : List Feature) : Nat :=
  features.foldl (fun bits k => bits ||| 1 <<< k.bit) 0

def featuresOfBits (bits : Nat) : List Feature :=
  Feature.all.filter fun k => bits.testBit k.bit

end YulPruner
