import YulPruner.Pruning.Redirect
import YulPruner.Syntax.Items

namespace YulPruner

mutual

def Expr.mapCallees (ρ : Name → Name) : Expr → Expr
  | .var x => .var x
  | .literal l => .literal l
  | .call f arguments => .call (ρ f) (Expr.mapCalleesAll ρ arguments)
termination_by structural e => e

def Expr.mapCalleesAll (ρ : Name → Name) : List Expr → List Expr
  | [] => []
  | e :: es => e.mapCallees ρ :: Expr.mapCalleesAll ρ es
termination_by structural es => es

end

mutual

def Stmt.mapCallees (ρ : Name → Name) : Stmt → Stmt
  | .expression e => .expression (e.mapCallees ρ)
  | .assignment targets value => .assignment targets (value.mapCallees ρ)
  | .declaration names value => .declaration names (value.map (·.mapCallees ρ))
  | .function ⟨name, parameters, returns, body⟩ =>
    .function ⟨name, parameters, returns, Block.mapCallees ρ body⟩
  | .conditional condition body => .conditional (condition.mapCallees ρ) (Block.mapCallees ρ body)
  | .switch scrutinee cases => .switch (scrutinee.mapCallees ρ) (Case.mapCalleesAll ρ cases)
  | .loop pre condition post body =>
    .loop (Block.mapCallees ρ pre) (condition.mapCallees ρ) (Block.mapCallees ρ post)
      (Block.mapCallees ρ body)
  | .jump j => .jump j
  | .block body => .block (Block.mapCallees ρ body)
termination_by structural s => s

def Block.mapCallees (ρ : Name → Name) : List Stmt → List Stmt
  | [] => []
  | s :: ss => s.mapCallees ρ :: Block.mapCallees ρ ss
termination_by structural ss => ss

def Case.mapCalleesAll (ρ : Name → Name) : List (CaseOf (List Stmt)) → List (CaseOf (List Stmt))
  | [] => []
  | ⟨value, body⟩ :: cases => ⟨value, Block.mapCallees ρ body⟩ :: Case.mapCalleesAll ρ cases
termination_by structural cases => cases

end

def Function.mapCallees (ρ : Name → Name) (f : Function) : Function :=
  { f with body := Block.mapCallees ρ f.body }

def CallSite.mapCallee (ρ : Name → Name) (site : CallSite) : CallSite :=
  { site with callee := ρ site.callee }

def Item.mapCallees (ρ : Name → Name) : Item → Item
  | .definition f => .definition (f.mapCallees ρ)
  | .value e bound => .value (e.mapCallees ρ) bound
  | item => item

variable (ρ : Name → Name)

@[simp] theorem Stmt.mapCallees_function (f : Function) :
    (Stmt.function f).mapCallees ρ = .function (f.mapCallees ρ) := rfl

@[simp] theorem Function.mapCallees_name (f : Function) : (f.mapCallees ρ).name = f.name := rfl

@[simp] theorem Function.mapCallees_parameters (f : Function) :
    (f.mapCallees ρ).parameters = f.parameters := rfl

@[simp] theorem Function.mapCallees_returns (f : Function) :
    (f.mapCallees ρ).returns = f.returns := rfl

@[simp] theorem Function.mapCallees_body (f : Function) :
    (f.mapCallees ρ).body = Block.mapCallees ρ f.body := rfl

theorem Stmt.mapCallees_ne_function {ρ : Name → Name} {s : Stmt} (hs : ∀ f, s ≠ .function f) :
    ∀ f, s.mapCallees ρ ≠ .function f := by
  cases s with
  | function f => exact absurd rfl (hs f)
  | _ => intro f; simp [Stmt.mapCallees]

theorem Expr.mapCalleesAll_eq_map (es : List Expr) :
    Expr.mapCalleesAll ρ es = es.map (·.mapCallees ρ) := by
  induction es with
  | nil => rfl
  | cons e es ih => rw [Expr.mapCalleesAll, ih, List.map_cons]

section Identity

mutual

theorem Expr.mapCallees_id : ∀ e : Expr, e.mapCallees (fun c => c) = e
  | .var _ => rfl
  | .literal _ => rfl
  | .call _ arguments => by rw [Expr.mapCallees, Expr.mapCalleesAll_id arguments]

theorem Expr.mapCalleesAll_id : ∀ es : List Expr, Expr.mapCalleesAll (fun c => c) es = es
  | [] => rfl
  | e :: es => by rw [Expr.mapCalleesAll, Expr.mapCallees_id e, Expr.mapCalleesAll_id es]

end

mutual

theorem Stmt.mapCallees_id : ∀ s : Stmt, s.mapCallees (fun c => c) = s
  | .expression e => by rw [Stmt.mapCallees, Expr.mapCallees_id]
  | .assignment _ value => by rw [Stmt.mapCallees, Expr.mapCallees_id]
  | .declaration _ value => by simp [Stmt.mapCallees, Expr.mapCallees_id]
  | .function ⟨_, _, _, body⟩ => by rw [Stmt.mapCallees, Block.mapCallees_id body]
  | .conditional _ body => by rw [Stmt.mapCallees, Expr.mapCallees_id, Block.mapCallees_id body]
  | .switch _ cases => by rw [Stmt.mapCallees, Expr.mapCallees_id, Case.mapCalleesAll_id cases]
  | .loop pre _ post body => by
      rw [Stmt.mapCallees, Expr.mapCallees_id, Block.mapCallees_id pre, Block.mapCallees_id post,
        Block.mapCallees_id body]
  | .jump _ => rfl
  | .block body => by rw [Stmt.mapCallees, Block.mapCallees_id body]

theorem Block.mapCallees_id : ∀ b : Block, Block.mapCallees (fun c => c) b = b
  | [] => rfl
  | s :: ss => by rw [Block.mapCallees, Stmt.mapCallees_id s, Block.mapCallees_id ss]

theorem Case.mapCalleesAll_id : ∀ cases : List Case, Case.mapCalleesAll (fun c => c) cases = cases
  | [] => rfl
  | ⟨_, body⟩ :: cases => by
      rw [Case.mapCalleesAll, Block.mapCallees_id body, Case.mapCalleesAll_id cases]

end

theorem Function.mapCallees_id (f : Function) : f.mapCallees (fun c => c) = f := by
  rw [Function.mapCallees, Block.mapCallees_id]

end Identity

section Items

mutual

theorem Expr.callSites_mapCallees (bound : Nat) : ∀ e : Expr,
    (e.mapCallees ρ).callSites bound = (e.callSites bound).map (·.mapCallee ρ)
  | .var _ => rfl
  | .literal _ => rfl
  | .call _ arguments => by
      rw [Expr.mapCallees, Expr.callSites, Expr.callSitesAll_mapCallees arguments,
        Expr.mapCalleesAll_eq_map, List.length_map, Expr.callSites, List.map_cons,
        CallSite.mapCallee]

theorem Expr.callSitesAll_mapCallees : ∀ es : List Expr,
    Expr.callSitesAll (Expr.mapCalleesAll ρ es) = (Expr.callSitesAll es).map (·.mapCallee ρ)
  | [] => rfl
  | e :: es => by
      rw [Expr.mapCalleesAll, Expr.callSitesAll, Expr.callSites_mapCallees 1 e,
        Expr.callSitesAll_mapCallees es, Expr.callSitesAll, List.map_append]

end

mutual

theorem Expr.variables_mapCallees : ∀ e : Expr, (e.mapCallees ρ).variables = e.variables
  | .var _ => rfl
  | .literal _ => rfl
  | .call _ arguments => Expr.variablesAll_mapCallees arguments

theorem Expr.variablesAll_mapCallees : ∀ es : List Expr,
    Expr.variablesAll (Expr.mapCalleesAll ρ es) = Expr.variablesAll es
  | [] => rfl
  | e :: es => by
      rw [Expr.mapCalleesAll, Expr.variablesAll, Expr.variables_mapCallees e,
        Expr.variablesAll_mapCallees es, Expr.variablesAll]

end

mutual

theorem Stmt.items_mapCallees : ∀ s : Stmt, (s.mapCallees ρ).items = s.items.map (·.mapCallees ρ)
  | .expression _ => rfl
  | .assignment _ _ => rfl
  | .declaration _ value => by cases value <;> rfl
  | .function ⟨_, _, _, body⟩ => by
      simp [Stmt.mapCallees, Stmt.items, Item.mapCallees, Function.mapCallees,
        Block.items_mapCallees body]
  | .conditional _ body => by
      simp [Stmt.mapCallees, Stmt.items, Item.mapCallees, Block.items_mapCallees body]
  | .switch _ cases => by
      simp [Stmt.mapCallees, Stmt.items, Item.mapCallees, Case.items_mapCallees cases]
  | .loop pre _ post body => by
      simp [Stmt.mapCallees, Stmt.items, Item.mapCallees, Block.items_mapCallees pre,
        Block.items_mapCallees post, Block.items_mapCallees body]
  | .jump _ => rfl
  | .block body => Block.items_mapCallees body

theorem Block.items_mapCallees : ∀ b : Block,
    Block.items (Block.mapCallees ρ b) = (Block.items b).map (·.mapCallees ρ)
  | [] => rfl
  | s :: ss => by
      rw [Block.mapCallees, Block.items, Stmt.items_mapCallees s, Block.items_mapCallees ss,
        Block.items, List.map_append]

theorem Case.items_mapCallees : ∀ cases : List Case,
    Case.items (Case.mapCalleesAll ρ cases) = (Case.items cases).map (·.mapCallees ρ)
  | [] => rfl
  | ⟨_, body⟩ :: cases => by
      rw [Case.mapCalleesAll, Case.items, Block.items_mapCallees body, Case.items_mapCallees cases,
        Case.items, List.map_append]

end

theorem Block.callSites_mapCallees (b : Block) :
    Block.callSites (Block.mapCallees ρ b) = (Block.callSites b).map (·.mapCallee ρ) := by
  rw [Block.callSites, Block.items_mapCallees, List.flatMap_map, Block.callSites, List.map_flatMap]
  congr 1
  funext item
  cases item with
  | value e bound => exact Expr.callSites_mapCallees ρ bound e
  | _ => rfl

theorem Block.references_mapCallees (b : Block) :
    Block.references (Block.mapCallees ρ b) = Block.references b := by
  rw [Block.references, Block.items_mapCallees, List.flatMap_map, Block.references]
  congr 1
  funext item
  cases item with
  | value e bound => exact Expr.variables_mapCallees ρ e
  | _ => rfl

theorem Block.definitions_mapCallees (b : Block) :
    Block.definitions (Block.mapCallees ρ b) = (Block.definitions b).map (·.mapCallees ρ) := by
  rw [Block.definitions, Block.items_mapCallees, List.filterMap_map, Block.definitions,
    List.map_filterMap]
  congr 1
  funext item
  cases item <;> rfl

end Items

section Redirection

/-- What a redirection makes of a callee. -/
def Redirection.rename (r : Redirection) (callee : Name) : Name := (r.target? callee).getD callee

variable (r : Redirection)

theorem Block.redirect_append (a b : Block) :
    Block.redirect r (a ++ b) = Block.redirect r a ++ Block.redirect r b := by
  induction a with
  | nil => rfl
  | cons s ss ih => rw [List.cons_append, Block.redirect, ih, Block.redirect, List.cons_append]

mutual

theorem Expr.redirect_eq_mapCallees : ∀ e : Expr, e.redirect r = e.mapCallees r.rename
  | .var _ => rfl
  | .literal _ => rfl
  | .call _ arguments => by
      rw [Expr.redirect, Expr.redirectAll_eq_mapCallees arguments, Expr.mapCallees,
        Redirection.rename]

theorem Expr.redirectAll_eq_mapCallees : ∀ es : List Expr,
    Expr.redirectAll r es = Expr.mapCalleesAll r.rename es
  | [] => rfl
  | e :: es => by
      rw [Expr.redirectAll, Expr.redirect_eq_mapCallees e, Expr.redirectAll_eq_mapCallees es,
        Expr.mapCalleesAll]

end

/-- No definition among the items is excluded. -/
def Redirection.Reaches (r : Redirection) (items : List Item) : Prop :=
  ∀ f, Item.definition f ∈ items → f.name ∉ r.excluded

theorem Redirection.Reaches.mono {r : Redirection} {is js : List Item} (h : r.Reaches is)
    (hs : ∀ item ∈ js, item ∈ is) : r.Reaches js :=
  fun f hf => h f (hs _ hf)

mutual

theorem Stmt.redirect_eq_mapCallees : ∀ s : Stmt, r.Reaches s.items →
    s.redirect r = s.mapCallees r.rename
  | .expression e, _ => by rw [Stmt.redirect, Expr.redirect_eq_mapCallees, Stmt.mapCallees]
  | .assignment _ value, _ => by rw [Stmt.redirect, Expr.redirect_eq_mapCallees, Stmt.mapCallees]
  | .declaration _ value, _ => by
      simp only [Stmt.redirect, Expr.redirect_eq_mapCallees, Stmt.mapCallees]
  | .function ⟨name, parameters, returns, body⟩, h => by
      have hname : name ∉ r.excluded := h _ List.mem_cons_self
      have hbody := Block.redirect_eq_mapCallees body (h.mono fun _ hi => List.mem_cons_of_mem _ hi)
      rw [Stmt.redirect, if_neg hname, hbody, Stmt.mapCallees]
  | .conditional _ body, h => by
      have hbody := Block.redirect_eq_mapCallees body (h.mono fun _ hi => by simp [Stmt.items, hi])
      rw [Stmt.redirect, Expr.redirect_eq_mapCallees, hbody, Stmt.mapCallees]
  | .switch _ cases, h => by
      have hcases := Case.redirectAll_eq_mapCallees cases
        (h.mono fun _ hi => by simp [Stmt.items, hi])
      rw [Stmt.redirect, Expr.redirect_eq_mapCallees, hcases, Stmt.mapCallees]
  | .loop pre _ post body, h => by
      have hpre := Block.redirect_eq_mapCallees pre (h.mono fun _ hi => by simp [Stmt.items, hi])
      have hpost := Block.redirect_eq_mapCallees post (h.mono fun _ hi => by simp [Stmt.items, hi])
      have hbody := Block.redirect_eq_mapCallees body (h.mono fun _ hi => by simp [Stmt.items, hi])
      rw [Stmt.redirect, Expr.redirect_eq_mapCallees, hpre, hpost, hbody, Stmt.mapCallees]
  | .jump _, _ => rfl
  | .block body, h => by rw [Stmt.redirect, Block.redirect_eq_mapCallees body h, Stmt.mapCallees]

/-- Where no definition is excluded, redirecting calls is renaming callees. -/
theorem Block.redirect_eq_mapCallees : ∀ b : Block, r.Reaches (Block.items b) →
    Block.redirect r b = Block.mapCallees r.rename b
  | [], _ => rfl
  | s :: ss, h => by
      have hs := Stmt.redirect_eq_mapCallees s
        (h.mono fun _ hi => List.mem_append_left (Block.items ss) hi)
      have hss := Block.redirect_eq_mapCallees ss
        (h.mono fun _ hi => List.mem_append_right s.items hi)
      rw [Block.redirect, hs, hss, Block.mapCallees]

theorem Case.redirectAll_eq_mapCallees : ∀ cases : List Case, r.Reaches (Case.items cases) →
    Case.redirectAll r cases = Case.mapCalleesAll r.rename cases
  | [], _ => rfl
  | ⟨_, body⟩ :: cases, h => by
      have hbody := Block.redirect_eq_mapCallees body
        (h.mono fun _ hi => List.mem_append_left (Case.items cases) hi)
      have hcases := Case.redirectAll_eq_mapCallees cases
        (h.mono fun _ hi => List.mem_append_right (Block.items body) hi)
      rw [Case.redirectAll, hbody, hcases, Case.mapCalleesAll]

end

end Redirection

end YulPruner
