import YulPruner.Syntax.Basic

namespace YulPruner

structure Redirection where
  /-- New callees by old ones. The last entry of a callee counts. -/
  targets : List (Name × Name)
  excluded : List Name

def Redirection.target? (r : Redirection) (callee : Name) : Option Name :=
  r.targets.reverse.lookup callee

mutual

def Expr.redirect (r : Redirection) : Expr → Expr
  | .var x => .var x
  | .literal l => .literal l
  | .call f arguments => .call ((r.target? f).getD f) (Expr.redirectAll r arguments)
termination_by structural e => e

def Expr.redirectAll (r : Redirection) : List Expr → List Expr
  | [] => []
  | e :: es => e.redirect r :: Expr.redirectAll r es
termination_by structural es => es

end

mutual

def Stmt.redirect (r : Redirection) : Stmt → Stmt
  | .expression e => .expression (e.redirect r)
  | .assignment targets value => .assignment targets (value.redirect r)
  | .declaration names value => .declaration names (value.map (·.redirect r))
  | .function ⟨name, parameters, returns, body⟩ =>
    .function ⟨name, parameters, returns,
      if name ∈ r.excluded then body else Block.redirect r body⟩
  | .conditional condition body => .conditional (condition.redirect r) (Block.redirect r body)
  | .switch scrutinee cases => .switch (scrutinee.redirect r) (Case.redirectAll r cases)
  | .loop pre condition post body =>
    .loop (Block.redirect r pre) (condition.redirect r) (Block.redirect r post)
      (Block.redirect r body)
  | .jump j => .jump j
  | .block body => .block (Block.redirect r body)
termination_by structural s => s

def Block.redirect (r : Redirection) : List Stmt → List Stmt
  | [] => []
  | s :: ss => s.redirect r :: Block.redirect r ss
termination_by structural ss => ss

def Case.redirectAll (r : Redirection) : List (CaseOf (List Stmt)) → List (CaseOf (List Stmt))
  | [] => []
  | ⟨value, body⟩ :: cases => ⟨value, Block.redirect r body⟩ :: Case.redirectAll r cases
termination_by structural cases => cases

end

mutual

def Expr.redirected (r : Redirection) : Expr → Nat
  | .var _ => 0
  | .literal _ => 0
  | .call f arguments =>
    (if (r.target? f).isSome then 1 else 0) + Expr.redirectedAll r arguments
termination_by structural e => e

def Expr.redirectedAll (r : Redirection) : List Expr → Nat
  | [] => 0
  | e :: es => e.redirected r + Expr.redirectedAll r es
termination_by structural es => es

end

mutual

/-- The number of calls that are redirected, those to themselves included. -/
def Stmt.redirected (r : Redirection) : Stmt → Nat
  | .expression e => e.redirected r
  | .assignment _ value => value.redirected r
  | .declaration _ value => (value.map (·.redirected r)).getD 0
  | .function ⟨name, _, _, body⟩ => if name ∈ r.excluded then 0 else Block.redirected r body
  | .conditional condition body => condition.redirected r + Block.redirected r body
  | .switch scrutinee cases => scrutinee.redirected r + Case.redirectedAll r cases
  | .loop pre condition post body =>
    Block.redirected r pre + condition.redirected r + Block.redirected r post +
      Block.redirected r body
  | .jump _ => 0
  | .block body => Block.redirected r body
termination_by structural s => s

def Block.redirected (r : Redirection) : List Stmt → Nat
  | [] => 0
  | s :: ss => s.redirected r + Block.redirected r ss
termination_by structural ss => ss

def Case.redirectedAll (r : Redirection) : List (CaseOf (List Stmt)) → Nat
  | [] => 0
  | ⟨_, body⟩ :: cases => Block.redirected r body + Case.redirectedAll r cases
termination_by structural cases => cases

end

def Program.redirect (r : Redirection) (p : Program) : Program := ⟨Block.redirect r p.root⟩

def Program.redirected (r : Redirection) (p : Program) : Nat := Block.redirected r p.root

end YulPruner
