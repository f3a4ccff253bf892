import YulPruner.Proofs.Analysis.Index
import YulPruner.Proofs.Pruning.Split
import YulPruner.Proofs.Syntax.Callees
import YulPruner.Proofs.Syntax.Items
import YulPruner.Pruning.Prune

namespace YulPruner

namespace Program

/-- The names of the functions to split, in program order. -/
def splitNames (p : Program) : List Name := p.prunable.map (·.1.function.name)

variable (p : Program) (shim : Name → Function)

/-- Where the calls of `c` go. -/
def callee (c : Name) : Name := if c ∈ p.splitNames then (shim c).name else c

/-- What takes the place of the first definition of a name. -/
def pieces (f : Function) : List Function :=
  if f.name ∈ p.splitNames then [f.trim.mapCallees (p.callee shim), shim f.name]
  else [f.mapCallees (p.callee shim)]

/-- What takes the place of the statements that stand behind definitions of the names `seen`. -/
def expandFrom (seen : List Name) : List Stmt → List Stmt
  | [] => []
  | .function f :: ss =>
    if f.name ∈ seen then .function (Function.mapCallees (p.callee shim) f) :: expandFrom seen ss
    else (p.pieces shim f).map .function ++ expandFrom (f.name :: seen) ss
  | s :: ss => s.mapCallees (p.callee shim) :: expandFrom seen ss

def expansion : Program := ⟨p.expandFrom shim [] p.root⟩

def shimNames : List Name := p.splitNames.flatMap fun c => (shim c).heading

/-- The names in the shims are names of the program with numbers behind them. -/
def NumbersShims : Prop := ∀ x ∈ p.shimNames shim, ∃ hint ∈ p.names, IsNumbered hint x

/-- `shim` holds a shim for every function to split, and the names in them are new. -/
structure Shims : Prop where
  isShim {f : Function} : p.function? f.name = some f → (f.usage p).isPrunable →
    (shim f.name).IsShim f
  nodup : (p.shimNames shim).Nodup
  fresh {x : Name} : x ∈ p.shimNames shim → x ∉ p.names

theorem expandFrom_function (seen : List Name) (f : Function) (ss : List Stmt) :
    p.expandFrom shim seen (.function f :: ss) =
      if f.name ∈ seen then .function (f.mapCallees (p.callee shim)) :: p.expandFrom shim seen ss
      else (p.pieces shim f).map .function ++ p.expandFrom shim (f.name :: seen) ss := rfl

theorem expandFrom_of_ne {s : Stmt} (hs : ∀ f, s ≠ .function f) (seen : List Name)
    (ss : List Stmt) : p.expandFrom shim seen (s :: ss) =
      s.mapCallees (p.callee shim) :: p.expandFrom shim seen ss := by
  cases s with
  | function f => exact absurd rfl (hs f)
  | _ => rfl

variable {p shim}

theorem mem_prunable {e : IndexEntry} {u : FunctionUsage} : (e, u) ∈ p.prunable ↔
    e ∈ p.index ∧ u = e.function.usage p ∧ (e.function.usage p).isPrunable := by
  simp only [prunable, usages, List.mem_filter, List.mem_map, Prod.mk.injEq]
  constructor
  · rintro ⟨⟨e, he, rfl, rfl⟩, hu⟩
    exact ⟨he, rfl, hu⟩
  · rintro ⟨he, rfl, hu⟩
    exact ⟨⟨e, he, rfl, rfl⟩, hu⟩

theorem mem_splitNames {c : Name} :
    c ∈ p.splitNames ↔ ∃ f, p.function? c = some f ∧ (f.usage p).isPrunable := by
  rw [splitNames, List.mem_map]
  constructor
  · rintro ⟨⟨e, u⟩, he, rfl⟩
    obtain ⟨he, -, hu⟩ := mem_prunable.mp he
    exact ⟨e.function, function?_of_mem_index he, hu⟩
  · rintro ⟨f, hf, hu⟩
    obtain ⟨e, he, rfl⟩ := exists_mem_index hf
    exact ⟨(e, e.function.usage p), mem_prunable.mpr ⟨he, rfl, hu⟩, name_of_function? hf⟩

theorem name_mem_splitNames {f : Function} (hf : p.function? f.name = some f) :
    f.name ∈ p.splitNames ↔ (f.usage p).isPrunable := by
  rw [mem_splitNames, hf]
  simp

theorem splitNames_nodup : p.splitNames.Nodup := by
  refine (indexFrom_names_nodup 0 [] p.root).sublist ?_
  have hsub : (p.prunable.map Prod.fst).Sublist p.index := by
    have h := (List.filter_sublist (p := fun eu : IndexEntry × FunctionUsage => eu.2.isPrunable)
      (l := p.usages)).map Prod.fst
    rwa [usages, List.map_map, show Prod.fst ∘ _ = (id : IndexEntry → IndexEntry) from rfl,
      List.map_id] at h
  have h := hsub.map (·.function.name)
  rwa [List.map_map] at h

theorem callee_of_mem {c : Name} (hc : c ∈ p.splitNames) : p.callee shim c = (shim c).name :=
  if_pos hc

theorem callee_of_not_mem {c : Name} (hc : c ∉ p.splitNames) : p.callee shim c = c :=
  if_neg hc

variable (p shim)

/-- How the expansion comes about, from the statements behind definitions of the names `seen`. Of a
first definition it is known that its name stands for it. -/
inductive Expands : List Name → List Stmt → List Stmt → Prop
  | nil (seen) : Expands seen [] []
  | split {seen ss out} {f : Function} (hf : p.function? f.name = some f)
      (hu : (f.usage p).isPrunable) (hnew : f.name ∉ seen) (h : Expands (f.name :: seen) ss out) :
      Expands seen (.function f :: ss) (.function (f.trim.mapCallees (p.callee shim)) ::
        .function (shim f.name) :: out)
  | keep {seen ss out} {f : Function} (hf : p.function? f.name = some f)
      (hu : ¬ (f.usage p).isPrunable) (hnew : f.name ∉ seen) (h : Expands (f.name :: seen) ss out) :
      Expands seen (.function f :: ss) (.function (f.mapCallees (p.callee shim)) :: out)
  | again {seen ss out} {f : Function} (hf : Stmt.function f ∈ p.root) (hseen : f.name ∈ seen)
      (h : Expands seen ss out) :
      Expands seen (.function f :: ss) (.function (f.mapCallees (p.callee shim)) :: out)
  | other {seen ss out} {s : Stmt} (hs : ∀ f, s ≠ .function f) (hmem : s ∈ p.root)
      (h : Expands seen ss out) :
      Expands seen (s :: ss) (s.mapCallees (p.callee shim) :: out)

theorem expands_expandFrom (before ss : List Stmt) (hroot : p.root = before ++ ss)
    (seen : List Name) (hseen : ∀ c, c ∈ seen ↔ ∃ g, Stmt.function g ∈ before ∧ g.name = c) :
    p.Expands shim seen ss (p.expandFrom shim seen ss) := by
  induction ss using rootInduction generalizing before seen with
  | nil => exact .nil seen
  | function f ss ih =>
      have hmem : Stmt.function f ∈ p.root := hroot ▸ List.mem_append_right _ List.mem_cons_self
      have hrest := ih (before ++ [.function f]) (by simp [hroot])
      simp only [List.mem_append, List.mem_singleton, Stmt.function.injEq] at hrest
      rw [expandFrom_function]
      by_cases hf : f.name ∈ seen
      · rw [if_pos hf]
        exact .again hmem hf (hrest seen (by grind))
      · have hfirst : (IndexEntry.mk before.length f).IsFirst p.root 0 :=
          ⟨before, ss, hroot, by simp, fun g hg hname => hf ((hseen _).mpr ⟨g, hg, hname⟩)⟩
        rw [if_neg hf, pieces]
        by_cases hu : (Function.usage p f).isPrunable
        · rw [if_pos ((name_mem_splitNames hfirst.function?).mpr hu)]
          exact .split hfirst.function? hu hf (hrest (f.name :: seen) (by grind))
        · rw [if_neg fun hc => hu ((name_mem_splitNames hfirst.function?).mp hc)]
          exact .keep hfirst.function? hu hf (hrest (f.name :: seen) (by grind))
  | other s ss hs ih =>
      have hmem : s ∈ p.root := hroot ▸ List.mem_append_right _ List.mem_cons_self
      have hrest := ih (before ++ [s]) (by simp [hroot]) seen
      simp only [List.mem_append, List.mem_singleton] at hrest
      rw [expandFrom_of_ne _ _ hs]
      exact .other hs hmem (hrest (by grind))

theorem expands_expansion : p.Expands shim [] p.root (p.expansion shim).root :=
  p.expands_expandFrom shim [] p.root rfl [] (by simp)

variable {p shim}

/-- Where nothing is to be split, the expansion is the program. -/
theorem expansion_eq_self (hp : p.prunable = []) : p.expansion shim = p := by
  have hsplit (c : Name) : c ∉ p.splitNames := by
    rw [splitNames, hp]
    exact List.not_mem_nil
  have hcallee : p.callee shim = fun c => c := funext fun c => callee_of_not_mem (hsplit c)
  have hroot {seen ss out} (h : p.Expands shim seen ss out) : out = ss := by
    induction h with
    | nil => rfl
    | split hf hu => exact absurd ((name_mem_splitNames hf).mpr hu) (hsplit _)
    | keep _ _ _ _ ih | again _ _ _ ih =>
        rw [ih, ← Stmt.mapCallees_function, hcallee, Stmt.mapCallees_id]
    | other _ _ _ ih => rw [ih, hcallee, Stmt.mapCallees_id]
  rw [expansion, show p.expandFrom shim [] p.root = p.root from hroot (p.expands_expansion shim)]

theorem shimNames_of_prunable_eq_nil (hp : p.prunable = []) : p.shimNames shim = [] := by
  rw [shimNames, splitNames, hp]
  rfl

theorem numbersShims_of_prunable_eq_nil (hp : p.prunable = []) : p.NumbersShims shim := by
  rw [NumbersShims, shimNames_of_prunable_eq_nil hp]
  exact List.forall_mem_nil _

theorem shims_of_prunable_eq_nil (hp : p.prunable = []) : p.Shims shim := by
  have hnames : p.shimNames shim = [] := shimNames_of_prunable_eq_nil hp
  refine ⟨?_, ?_, ?_⟩
  · intro f hf hu
    have hc := (name_mem_splitNames hf).mpr hu
    rw [splitNames, hp] at hc
    exact absurd hc List.not_mem_nil
  · rw [hnames]
    exact List.nodup_nil
  · rw [hnames]
    exact fun hx => absurd hx List.not_mem_nil

end Program

end YulPruner
