import YulPruner.Proofs.Syntax.Callees

namespace YulPruner

def Expr.shape (e : Expr) : Expr := e.mapCallees fun _ => ""

def Expr.shapeAll (es : List Expr) : List Expr := Expr.mapCalleesAll (fun _ => "") es

def Expr.callees (e : Expr) : List Name := (e.callSites 1).map (·.callee)

def Expr.calleesAll (es : List Expr) : List Name := (Expr.callSitesAll es).map (·.callee)

mutual

/-- The statement with the empty name for every callee, the bodies of excluded functions apart. -/
def Stmt.shape (excluded : List Name) : Stmt → Stmt
  | .expression e => .expression e.shape
  | .assignment targets value => .assignment targets value.shape
  | .declaration names value => .declaration names (value.map Expr.shape)
  | .function ⟨name, parameters, returns, body⟩ =>
    .function ⟨name, parameters, returns,
      if name ∈ excluded then body else Block.shape excluded body⟩
  | .conditional condition body => .conditional condition.shape (Block.shape excluded body)
  | .switch scrutinee cases => .switch scrutinee.shape (Case.shapeAll excluded cases)
  | .loop pre condition post body =>
    .loop (Block.shape excluded pre) condition.shape (Block.shape excluded post)
      (Block.shape excluded body)
  | .jump j => .jump j
  | .block body => .block (Block.shape excluded body)
termination_by structural s => s

def Block.shape (excluded : List Name) : List Stmt → List Stmt
  | [] => []
  | s :: ss => s.shape excluded :: Block.shape excluded ss
termination_by structural ss => ss

def Case.shapeAll (excluded : List Name) : List (CaseOf (List Stmt)) → List (CaseOf (List Stmt))
  | [] => []
  | ⟨value, body⟩ :: cases => ⟨value, Block.shape excluded body⟩ :: Case.shapeAll excluded cases
termination_by structural cases => cases

end

mutual

/-- The callees of the calls outside the bodies of excluded functions, in the order of the text. -/
def Stmt.openCallees (excluded : List Name) : Stmt → List Name
  | .expression e => e.callees
  | .assignment _ value => value.callees
  | .declaration _ value => value.toList.flatMap Expr.callees
  | .function ⟨name, _, _, body⟩ => if name ∈ excluded then [] else Block.openCallees excluded body
  | .conditional condition body => condition.callees ++ Block.openCallees excluded body
  | .switch scrutinee cases => scrutinee.callees ++ Case.openCallees excluded cases
  | .loop pre condition post body =>
    Block.openCallees excluded pre ++ (condition.callees ++ (Block.openCallees excluded post ++
      Block.openCallees excluded body))
  | .jump _ => []
  | .block body => Block.openCallees excluded body
termination_by structural s => s

def Block.openCallees (excluded : List Name) : List Stmt → List Name
  | [] => []
  | s :: ss => s.openCallees excluded ++ Block.openCallees excluded ss
termination_by structural ss => ss

def Case.openCallees (excluded : List Name) : List (CaseOf (List Stmt)) → List Name
  | [] => []
  | ⟨_, body⟩ :: cases => Block.openCallees excluded body ++ Case.openCallees excluded cases
termination_by structural cases => cases

end

section Renaming

variable (ρ : Name → Name)

mutual

theorem Expr.mapCallees_mapCallees (σ : Name → Name) : ∀ e : Expr,
    (e.mapCallees ρ).mapCallees σ = e.mapCallees (σ ∘ ρ)
  | .var _ => rfl
  | .literal _ => rfl
  | .call _ arguments => by
      rw [mapCallees, mapCallees, Expr.mapCalleesAll_mapCalleesAll σ arguments, mapCallees]
      rfl

theorem Expr.mapCalleesAll_mapCalleesAll (σ : Name → Name) : ∀ es : List Expr,
    Expr.mapCalleesAll σ (Expr.mapCalleesAll ρ es) = Expr.mapCalleesAll (σ ∘ ρ) es
  | [] => rfl
  | e :: es => by
      rw [mapCalleesAll, mapCalleesAll, Expr.mapCallees_mapCallees σ e,
        Expr.mapCalleesAll_mapCalleesAll σ es, mapCalleesAll]

end

theorem Expr.shape_mapCallees (e : Expr) : (e.mapCallees ρ).shape = e.shape :=
  e.mapCallees_mapCallees ρ fun _ => ""

theorem Expr.callees_mapCallees (e : Expr) : (e.mapCallees ρ).callees = e.callees.map ρ := by
  rw [callees, Expr.callSites_mapCallees, callees, List.map_map, List.map_map]
  rfl

end Renaming

def nextName : StateM (List Name) Name := modifyGet fun names => (names.headD "", names.tail)

mutual

def Expr.fill : Expr → StateM (List Name) Expr
  | .var x => return .var x
  | .literal l => return .literal l
  | .call _ arguments => do return .call (← nextName) (← Expr.fillAll arguments)
termination_by structural e => e

def Expr.fillAll : List Expr → StateM (List Name) (List Expr)
  | [] => return []
  | e :: es => do return (← e.fill) :: (← Expr.fillAll es)
termination_by structural es => es

end

mutual

def Stmt.fill (excluded : List Name) : Stmt → StateM (List Name) Stmt
  | .expression e => return .expression (← e.fill)
  | .assignment targets value => return .assignment targets (← value.fill)
  | .declaration names none => return .declaration names none
  | .declaration names (some value) => return .declaration names (some (← value.fill))
  | .function ⟨name, parameters, returns, body⟩ =>
    if name ∈ excluded then return .function ⟨name, parameters, returns, body⟩
    else return .function ⟨name, parameters, returns, ← Block.fill excluded body⟩
  | .conditional condition body =>
    return .conditional (← condition.fill) (← Block.fill excluded body)
  | .switch scrutinee cases => return .switch (← scrutinee.fill) (← Case.fillAll excluded cases)
  | .loop pre condition post body =>
    return .loop (← Block.fill excluded pre) (← condition.fill) (← Block.fill excluded post)
      (← Block.fill excluded body)
  | .jump j => return .jump j
  | .block body => return .block (← Block.fill excluded body)
termination_by structural s => s

def Block.fill (excluded : List Name) : List Stmt → StateM (List Name) (List Stmt)
  | [] => return []
  | s :: ss => return (← s.fill excluded) :: (← Block.fill excluded ss)
termination_by structural ss => ss

def Case.fillAll (excluded : List Name) :
    List (CaseOf (List Stmt)) → StateM (List Name) (List (CaseOf (List Stmt)))
  | [] => return []
  | ⟨value, body⟩ :: cases =>
    return ⟨value, ← Block.fill excluded body⟩ :: (← Case.fillAll excluded cases)
termination_by structural cases => cases

end

/-- Whatever names may follow, the computation takes the given ones and comes to `a`. -/
def Fills {α : Type} (x : StateM (List Name) α) (names : List Name) (a : α) : Prop :=
  ∀ rest, x.run (names ++ rest) = (a, rest)

namespace Fills

variable {α β : Type} {x : StateM (List Name) α} {names names' : List Name} {a : α} {b : β}

protected theorem pure (a : α) : Fills (pure a) [] a := fun _ => rfl

theorem next (name : Name) : Fills nextName [name] name := fun _ => rfl

theorem bind {k : α → StateM (List Name) β} (h : Fills x names a) (hk : Fills (k a) names' b) :
    Fills (x >>= k) (names ++ names') b := by
  intro rest
  rw [List.append_assoc, StateT.run_bind, h]
  exact hk rest

theorem bind_pure (h : Fills x names a) (f : α → β) :
    Fills (x >>= fun a => pure (f a)) names (f a) := by
  intro rest
  rw [StateT.run_bind, h]
  rfl

end Fills

mutual

theorem Expr.fills_shape : ∀ e : Expr, Fills e.shape.fill e.callees e
  | .var x => Fills.pure (Expr.var x)
  | .literal l => Fills.pure (Expr.literal l)
  | .call f arguments => by
      have harguments := (Expr.fills_shapeAll arguments).bind_pure (Expr.call f)
      exact (Fills.next f).bind harguments

theorem Expr.fills_shapeAll : ∀ es : List Expr,
    Fills (Expr.fillAll (Expr.shapeAll es)) (Expr.calleesAll es) es
  | [] => Fills.pure []
  | e :: es => by
      have hes := (Expr.fills_shapeAll es).bind_pure (e :: ·)
      rw [calleesAll, callSitesAll, List.map_append]
      exact (Expr.fills_shape e).bind hes

end

section Filling

variable (excluded : List Name)

mutual

theorem Stmt.fills_shape : ∀ s : Stmt,
    Fills ((s.shape excluded).fill excluded) (s.openCallees excluded) s
  | .expression e => e.fills_shape.bind_pure Stmt.expression
  | .assignment targets value => value.fills_shape.bind_pure (Stmt.assignment targets)
  | .declaration names none => Fills.pure (Stmt.declaration names none)
  | .declaration names (some value) => by
      rw [Stmt.openCallees, Option.toList_some, List.flatMap_singleton]
      exact value.fills_shape.bind_pure fun value => Stmt.declaration names (some value)
  | .function ⟨name, parameters, returns, body⟩ => by
      rw [Stmt.shape, Stmt.fill, Stmt.openCallees]
      by_cases hname : name ∈ excluded
      · simp only [if_pos hname]
        exact Fills.pure _
      · simp only [if_neg hname]
        exact (Block.fills_shape body).bind_pure fun body =>
          Stmt.function ⟨name, parameters, returns, body⟩
  | .conditional condition body =>
      condition.fills_shape.bind ((Block.fills_shape body).bind_pure (Stmt.conditional condition))
  | .switch scrutinee cases =>
      scrutinee.fills_shape.bind ((Case.fills_shapeAll cases).bind_pure (Stmt.switch scrutinee))
  | .loop pre condition post body =>
      (Block.fills_shape pre).bind (condition.fills_shape.bind ((Block.fills_shape post).bind
        ((Block.fills_shape body).bind_pure (Stmt.loop pre condition post))))
  | .jump j => Fills.pure (Stmt.jump j)
  | .block body => (Block.fills_shape body).bind_pure Stmt.block

/-- A block is its shape with the callees of its open calls filled in. -/
theorem Block.fills_shape : ∀ b : Block,
    Fills (Block.fill excluded (Block.shape excluded b)) (Block.openCallees excluded b) b
  | [] => Fills.pure []
  | s :: ss => (Stmt.fills_shape s).bind ((Block.fills_shape ss).bind_pure (s :: ·))

theorem Case.fills_shapeAll : ∀ cases : List Case,
    Fills (Case.fillAll excluded (Case.shapeAll excluded cases)) (Case.openCallees excluded cases)
      cases
  | [] => Fills.pure []
  | ⟨value, body⟩ :: cases =>
      (Block.fills_shape body).bind ((Case.fills_shapeAll cases).bind_pure (⟨value, body⟩ :: ·))

end

end Filling

theorem Block.eq_of_shape {excluded : List Name} {b b' : Block}
    (hshape : Block.shape excluded b = Block.shape excluded b')
    (hcallees : Block.openCallees excluded b = Block.openCallees excluded b') : b = b' := by
  have hfills := Block.fills_shape excluded b []
  rw [hshape, hcallees, Block.fills_shape excluded b' []] at hfills
  exact (congrArg Prod.fst hfills).symm

end YulPruner
