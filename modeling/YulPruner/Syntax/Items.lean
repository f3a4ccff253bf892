import YulPruner.Syntax.Basic

namespace YulPruner

inductive Item where
  | definition (f : Function)
  | declaration (names : List Name)
  | assignment (targets : List Name)
  | conditional
  | switch
  | loop
  /-- An expression whose results, as many as `bound`, go to the place where it stands. -/
  | value (e : Expr) (bound : Nat)

mutual

def Stmt.items : Stmt → List Item
  | .expression e => [.value e 0]
  | .assignment targets value => [.assignment targets, .value value targets.length]
  | .declaration names value =>
    .declaration names :: (value.map (Item.value · names.length)).toList
  | .function ⟨name, parameters, returns, body⟩ =>
    .definition ⟨name, parameters, returns, body⟩ :: Block.items body
  | .conditional condition body => .conditional :: .value condition 1 :: Block.items body
  | .switch scrutinee cases => .switch :: .value scrutinee 1 :: Case.items cases
  | .loop pre condition post body =>
    .loop :: Block.items pre ++ .value condition 1 :: (Block.items post ++ Block.items body)
  | .jump _ => []
  | .block body => Block.items body
termination_by structural s => s

def Block.items : List Stmt → List Item
  | [] => []
  | s :: ss => s.items ++ Block.items ss
termination_by structural ss => ss

def Case.items : List (CaseOf (List Stmt)) → List Item
  | [] => []
  | ⟨_, body⟩ :: cases => Block.items body ++ Case.items cases
termination_by structural cases => cases

end

mutual

def Expr.variables : Expr → List Name
  | .var x => [x]
  | .literal _ => []
  | .call _ arguments => Expr.variablesAll arguments
termination_by structural e => e

def Expr.variablesAll : List Expr → List Name
  | [] => []
  | e :: es => e.variables ++ Expr.variablesAll es
termination_by structural es => es

end

/-- A call, with the numbers of values that it passes and of results that its place takes. -/
structure CallSite where
  callee : Name
  passed : Nat
  bound : Nat
deriving DecidableEq, Repr

mutual

/-- The calls in an expression, each before the calls in its arguments. -/
def Expr.callSites (bound : Nat) : Expr → List CallSite
  | .var _ => []
  | .literal _ => []
  | .call f arguments => ⟨f, arguments.length, bound⟩ :: Expr.callSitesAll arguments
termination_by structural e => e

def Expr.callSitesAll : List Expr → List CallSite
  | [] => []
  | e :: es => e.callSites 1 ++ Expr.callSitesAll es
termination_by structural es => es

end

def Item.definition? : Item → Option Function
  | .definition f => some f
  | _ => none

def Item.callSites : Item → List CallSite
  | .value e bound => e.callSites bound
  | _ => []

/-- The variables that an item reads or assigns; a declaration does neither. -/
def Item.references : Item → List Name
  | .assignment targets => targets
  | .value e _ => e.variables
  | _ => []

def Item.names : Item → List Name
  | .definition f => f.name :: f.parameters ++ f.returns
  | .declaration names => names
  | .assignment targets => targets
  | .value e bound => e.variables ++ (e.callSites bound).map CallSite.callee
  | _ => []

/-- The definitions at any depth, each before those in its body. -/
def Block.definitions (b : Block) : List Function := (Block.items b).filterMap Item.definition?

def Block.callSites (b : Block) : List CallSite := (Block.items b).flatMap Item.callSites

def Block.references (b : Block) : List Name := (Block.items b).flatMap Item.references

def Block.names (b : Block) : List Name := (Block.items b).flatMap Item.names

def Program.names (p : Program) : List Name := Block.names p.root

def Program.distinctNames (p : Program) : List Name := (p.names.mergeSort (· ≤ ·)).eraseReps

def Block.referenceCount (b : Block) (x : Name) : Nat := (Block.references b).count x

end YulPruner
