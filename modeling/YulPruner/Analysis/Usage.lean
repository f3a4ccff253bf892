import YulPruner.Syntax.Items

namespace YulPruner

structure IndexEntry where
  /-- The number of statements before the definition. -/
  position : Nat
  function : Function

/-- The first definition of every name outside `seen`, if the statements stand behind `position`
others. -/
def indexFrom (position : Nat) (seen : List Name) : List Stmt → List IndexEntry
  | [] => []
  | .function f :: ss =>
    if f.name ∈ seen then indexFrom (position + 1) seen ss
    else ⟨position, f⟩ :: indexFrom (position + 1) (f.name :: seen) ss
  | _ :: ss => indexFrom (position + 1) seen ss

def Program.index (p : Program) : List IndexEntry := indexFrom 0 [] p.root

def Program.entry? (p : Program) (name : Name) : Option IndexEntry :=
  p.index.find? (·.function.name == name)

def Program.defines (p : Program) (name : Name) : Bool := (p.function? name).isSome

inductive Usage where
  | used
  | unused
deriving DecidableEq, Repr

structure FunctionUsage where
  parameters : List Usage
  returns : List Usage
  forwarding : Bool
deriving DecidableEq, Repr

def usageIn (references : List Name) (x : Name) : Usage :=
  if x ∈ references then .used else .unused

def Function.passesOn (p : Program) (f : Function) (callee : Name) (arguments : List Expr) : Bool :=
  p.defines callee && arguments.all fun
    | .var x => x ∈ f.parameters
    | _ => false

/-- Whether the body is a single call to a function of the program, from parameters of `f` to
return variables of `f`. -/
def Function.isForwarding (p : Program) (f : Function) : Bool :=
  match f.body with
  | [.expression (.call g arguments)] => f.passesOn p g arguments
  | [.assignment targets (.call g arguments)] =>
    f.passesOn p g arguments && targets.all (· ∈ f.returns)
  | _ => false

def Function.usage (p : Program) (f : Function) : FunctionUsage where
  parameters := f.parameters.map (usageIn (Block.references f.body))
  returns := f.returns.map (usageIn (Block.references f.body))
  forwarding := f.isForwarding p

namespace FunctionUsage

def hasUnused (u : FunctionUsage) : Bool := (u.parameters ++ u.returns).any (· = .unused)

def isPrunable (u : FunctionUsage) : Bool := !u.forwarding && u.hasUnused

end FunctionUsage

def Usage.letter : Usage → Char
  | .used => 'u'
  | .unused => '_'

def slotText (slots : List Usage) : String := String.ofList (slots.map Usage.letter)

def FunctionUsage.mask (u : FunctionUsage) : String :=
  "(" ++ slotText u.parameters ++ ") -> " ++ slotText u.returns

def Program.usages (p : Program) : List (IndexEntry × FunctionUsage) :=
  p.index.map fun e => (e, e.function.usage p)

def Program.prunable (p : Program) : List (IndexEntry × FunctionUsage) :=
  p.usages.filter (·.2.isPrunable)

end YulPruner
