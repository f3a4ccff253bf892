import YulPruner.Proofs.Naming
import YulPruner.Pruning.Prune
import Mathlib.Data.List.Forall2

namespace YulPruner

namespace Function

/-- The function with the slots that its body mentions. -/
def trim (f : Function) : Function :=
  { f with
    parameters := f.parameters.filter (· ∈ Block.references f.body)
    returns := f.returns.filter (· ∈ Block.references f.body) }

/-- What stands where `names` has names that the body of `f` mentions. -/
def mentioned {α : Type} (f : Function) (names : List Name) (slots : List α) : List α :=
  ((names.zip slots).filter (·.1 ∈ Block.references f.body)).map Prod.snd

/-- The names that the definition of a function introduces. -/
def heading (f : Function) : List Name := f.name :: f.parameters ++ f.returns

/-- The call of `f` in a shim `g`. It passes on the parameters of `g`, and assigns to the return
variables of `g`, that stand in the places of the slots that `f` mentions. -/
def forward (f g : Function) : Stmt :=
  let call := Expr.call f.name ((f.mentioned f.parameters g.parameters).map .var)
  if f.trim.returns = [] then .expression call
  else .assignment (f.mentioned f.returns g.returns) call

/-- `g` takes and returns as much as `f`, and all that its body does is to call `f`. -/
structure IsShim (g f : Function) : Prop where
  parameters_length : g.parameters.length = f.parameters.length
  returns_length : g.returns.length = f.returns.length
  body : g.body = [f.forward g]

/-- The names of `g` are names of `f` with numbers behind them. -/
def IsNumberedAfter (g f : Function) : Prop := List.Forall₂ IsNumbered f.heading g.heading

@[simp] theorem trim_name (f : Function) : f.trim.name = f.name := rfl

@[simp] theorem trim_body (f : Function) : f.trim.body = f.body := rfl

theorem slots_nodup_of_heading {f : Function} (h : f.heading.Nodup) :
    f.parameters.Nodup ∧ f.returns.Nodup ∧ ∀ x ∈ f.parameters, x ∉ f.returns := by
  obtain ⟨hparameters, hreturns, hdisjoint⟩ := List.nodup_append.mp (List.nodup_cons.mp h).2
  exact ⟨hparameters, hreturns, fun x hx hmem => hdisjoint x hx x hmem rfl⟩

variable {α β : Type}

theorem mentioned_cons (f : Function) (x : Name) (y : α) (names : List Name) (slots : List α) :
    f.mentioned (x :: names) (y :: slots) =
      if x ∈ Block.references f.body then y :: f.mentioned names slots
      else f.mentioned names slots := by
  rw [mentioned, List.zip_cons_cons]
  by_cases hx : x ∈ Block.references f.body
  · rw [if_pos hx, List.filter_cons_of_pos (by simpa using hx), List.map_cons, mentioned]
  · rw [if_neg hx, List.filter_cons_of_neg (by simpa using hx), mentioned]

theorem mentioned_map (f : Function) (k : α → β) (names : List Name) (slots : List α) :
    f.mentioned names (slots.map k) = (f.mentioned names slots).map k := by
  rw [mentioned, List.zip_map_right, List.filter_map, List.map_map, mentioned, List.map_map]
  rfl

theorem mentioned_self (f : Function) (names : List Name) :
    f.mentioned names names = names.filter (· ∈ Block.references f.body) := by
  have hpairs : names.zip names = names.map fun x => (x, x) := by
    simpa using List.zip_map' (f := id) (g := id) (l := names)
  rw [mentioned, hpairs, List.filter_map, List.map_map]
  exact List.map_id _

theorem mentioned_sublist (f : Function) (names : List Name) (slots : List α) :
    (f.mentioned names slots).Sublist slots := by
  have hzip : ((names.zip slots).map Prod.snd).Sublist slots := by
    induction names generalizing slots with
    | nil => exact List.nil_sublist _
    | cons x xs ih =>
        cases slots with
        | nil => exact List.nil_sublist _
        | cons y ys => exact (ih ys).cons_cons y
  exact (List.filter_sublist.map Prod.snd).trans hzip

theorem mentioned_length (f : Function) {names : List Name} {slots : List α}
    (h : slots.length = names.length) :
    (f.mentioned names slots).length = (names.filter (· ∈ Block.references f.body)).length := by
  rw [mentioned, List.length_map]
  have hnames : names = (names.zip slots).map Prod.fst := (List.map_fst_zip (Nat.le_of_eq h.symm)).symm
  conv_rhs => rw [hnames, List.filter_map, List.length_map]
  rfl

theorem mentioned_returns_eq_nil (f : Function) {slots : List Name}
    (h : slots.length = f.returns.length) : f.mentioned f.returns slots = [] ↔ f.trim.returns = [] := by
  rw [← List.length_eq_zero_iff, f.mentioned_length h, List.length_eq_zero_iff]
  rfl

theorem forwardingBody_eq (f g : Function) (h : g.returns.length = f.returns.length) :
    forwardingBody f.name (f.mentioned f.parameters g.parameters) (f.mentioned f.returns g.returns) =
      [f.forward g] := by
  have hnil := f.mentioned_returns_eq_nil h
  by_cases hret : f.trim.returns = []
  · simp [forwardingBody, forward, hret, hnil]
  · simp [forwardingBody, forward, hret, hnil]

end Function

theorem Expr.variablesAll_map_var (xs : List Name) : Expr.variablesAll (xs.map .var) = xs := by
  induction xs with
  | nil => rfl
  | cons x xs ih => rw [List.map_cons, Expr.variablesAll, Expr.variables, ih, List.singleton_append]

theorem Expr.callSitesAll_map_var (xs : List Name) : Expr.callSitesAll (xs.map .var) = [] := by
  induction xs with
  | nil => rfl
  | cons x xs ih => rw [List.map_cons, Expr.callSitesAll, Expr.callSites, ih, List.append_nil]

def Function.forwardSite (f : Function) : CallSite :=
  ⟨f.name, f.trim.parameters.length, f.trim.returns.length⟩

namespace Function.IsShim

variable {f g : Function} (h : g.IsShim f)

include h

theorem mentioned_parameters_length :
    (f.mentioned f.parameters g.parameters).length = f.trim.parameters.length :=
  f.mentioned_length h.parameters_length

theorem mentioned_returns_length :
    (f.mentioned f.returns g.returns).length = f.trim.returns.length :=
  f.mentioned_length h.returns_length

theorem callSites : Block.callSites g.body = [f.forwardSite] := by
  rw [h.body, Function.forward, Function.forwardSite, ← h.mentioned_parameters_length]
  by_cases hret : f.trim.returns = []
  · simp [hret, Block.callSites, Block.items, Stmt.items, Item.callSites, Expr.callSites,
      Expr.callSitesAll_map_var]
  · simp [hret, Block.callSites, Block.items, Stmt.items, Item.callSites, Expr.callSites,
      Expr.callSitesAll_map_var, h.mentioned_returns_length]

theorem references : Block.references g.body =
    f.mentioned f.returns g.returns ++ f.mentioned f.parameters g.parameters := by
  have hnil := f.mentioned_returns_eq_nil h.returns_length
  rw [h.body, Function.forward]
  by_cases hret : f.trim.returns = []
  · simp [hret, hnil.mpr hret, Block.references, Block.items, Stmt.items, Item.references,
      Expr.variables, Expr.variablesAll_map_var]
  · simp [hret, Block.references, Block.items, Stmt.items, Item.references, Expr.variables,
      Expr.variablesAll_map_var]

theorem definitions : Block.definitions g.body = [] := by
  rw [h.body, Function.forward]
  by_cases hret : f.trim.returns = []
  · simp [hret, Block.definitions, Block.items, Stmt.items, Item.definition?]
  · simp [hret, Block.definitions, Block.items, Stmt.items, Item.definition?]

end Function.IsShim

theorem selectUsed_map_usageIn (references names slots : List Name) :
    selectUsed slots (names.map (usageIn references)) =
      ((names.zip slots).filter (·.1 ∈ references)).map Prod.snd := by
  induction names generalizing slots with
  | nil => simp [selectUsed]
  | cons x xs ih =>
      cases slots with
      | nil => simp [selectUsed]
      | cons y ys =>
          have h := ih ys
          simp only [selectUsed] at h ⊢
          by_cases hx : x ∈ references <;> simp [usageIn, hx, h]

theorem Function.reduce_usage (f : Function) (p : Program) : f.reduce (f.usage p) = f.trim := by
  have hself (names : List Name) :
      selectUsed names (names.map (usageIn (Block.references f.body))) =
        names.filter (· ∈ Block.references f.body) := by
    rw [selectUsed_map_usageIn]
    exact f.mentioned_self names
  simp only [Function.reduce, Function.usage, Function.trim, hself]

theorem Function.split_issues (f : Function) (p : Program) :
    NameSupply.Issues (f.split (f.usage p)) fun s xs =>
      (s.reduced = f.trim ∧ s.shim.IsShim f ∧ s.shim.IsNumberedAfter f) ∧ xs = s.shim.heading := by
  have hslots (hints : List Name) : NameSupply.Issues (hints.mapM NameSupply.fresh)
      fun slots xs => List.Forall₂ IsNumbered hints slots ∧ xs = slots := by
    refine (NameSupply.Issues.mapM (R := IsNumbered) (k := fun x => [x])
      fun hint _ => NameSupply.issues_fresh hint).mono ?_
    rintro slots xs ⟨hslots, rfl⟩
    exact ⟨hslots, List.flatMap_singleton' slots⟩
  refine (NameSupply.issues_fresh f.name).bind fun name xs hname =>
    (hslots f.parameters).bind fun parameters ys hparameters =>
      (hslots f.returns).bind fun returns zs hreturns => NameSupply.Issues.pure ⟨⟨?_, ?_, ?_⟩, ?_⟩
  · exact f.reduce_usage p
  · refine ⟨hparameters.1.length_eq.symm, hreturns.1.length_eq.symm, ?_⟩
    rw [← f.forwardingBody_eq _ hreturns.1.length_eq.symm]
    simp only [Function.usage, Function.mentioned, selectUsed_map_usageIn]
  · exact List.rel_append (.cons hname.1 hparameters.1) hreturns.1
  · rw [hname.2, hparameters.2, hreturns.2]
    simp [Function.heading]

end YulPruner
