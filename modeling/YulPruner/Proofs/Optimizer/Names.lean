import YulPruner.Proofs.Analysis.FirstViolation
import YulPruner.Proofs.Optimizer.Pruner
import YulPruner.Proofs.Pruning.WellFormed
import YulPruner.Proofs.Syntax.Gathering

namespace YulPruner

/-- The names that an item introduces. -/
def Item.declared : Item → List Name
  | .definition f => f.heading
  | .declaration names => names
  | _ => []

def Block.declared (b : Block) : List Name := (Block.items b).flatMap Item.declared

/-- Every name as often as the program introduces it: as a function, a slot or a variable. -/
def Program.declared (p : Program) : List Name := Block.declared p.root

/-- Somewhere in the program, however deep, there is a node with the name. -/
def Program.Mentions (p : Program) (x : Name) : Prop := ∃ k n, p.OccursAt k n ∧ x ∈ n.names

/-- Somewhere in the block, however deep, the name is read or assigned. -/
def Block.Uses (b : Block) (x : Name) : Prop :=
  ∃ k n, Occurs (blockPortions 0 b) k n ∧ x ∈ n.uses

/-- `g` holds the body of `f` and has every slot of `f` that the body uses. -/
structure Function.Holds (ρ : Name → Name) (f g : Function) : Prop where
  name : g.name = f.name
  body : g.body = Block.mapCallees ρ f.body
  parameters {x : Name} (h : Block.Uses f.body x) : x ∈ f.parameters → x ∈ g.parameters
  returns {x : Name} (h : Block.Uses f.body x) : x ∈ f.returns → x ∈ g.returns

theorem Program.mentions_iff {p : Program} {x : Name} : p.Mentions x ↔ x ∈ p.names :=
  gathers_names.shows_block 0 p.root

theorem Block.uses_iff {b : Block} {x : Name} : Block.Uses b x ↔ x ∈ Block.references b :=
  gathers_uses.shows_block 0 b

section Declared

theorem Block.declared_cons (s : Stmt) (ss : Block) :
    Block.declared (s :: ss) = Block.declared [s] ++ Block.declared ss := by
  rw [Block.declared, Block.items, List.flatMap_append, Block.declared, Block.items_singleton,
    Block.declared]

theorem Block.declared_function (f : Function) :
    Block.declared [.function f] = f.heading ++ Block.declared f.body := by
  rw [Block.declared, Block.items_singleton, Stmt.items, List.flatMap_cons]
  rfl

theorem Block.declared_mapCallees (ρ : Name → Name) (b : Block) :
    Block.declared (Block.mapCallees ρ b) = Block.declared b := by
  rw [Block.declared, Block.items_mapCallees, List.flatMap_map, Block.declared]
  congr 1
  funext item
  cases item <;> rfl

theorem Block.declared_mapCallees_cons (ρ : Name → Name) (s : Stmt) (out : Block) :
    Block.declared (s.mapCallees ρ :: out) = Block.declared [s] ++ Block.declared out := by
  rw [Block.declared_cons, ← Block.declared_mapCallees ρ [s], Block.mapCallees, Block.mapCallees]

theorem Item.declared_subset_names {item : Item} {x : Name} (h : x ∈ item.declared) :
    x ∈ item.names := by
  cases item with
  | definition | declaration => exact h
  | _ => cases h

theorem Block.mem_names_of_mem_declared {b : Block} {x : Name} (h : x ∈ Block.declared b) :
    x ∈ Block.names b := by
  obtain ⟨item, hi, hx⟩ := List.mem_flatMap.mp h
  exact List.mem_flatMap.mpr ⟨item, hi, Item.declared_subset_names hx⟩

theorem Function.heading_trim_sublist (f : Function) : f.trim.heading.Sublist f.heading :=
  (List.filter_sublist.cons_cons f.name).append List.filter_sublist

theorem Function.IsShim.declared {f g : Function} (h : g.IsShim f) :
    Block.declared [.function g] = g.heading := by
  rw [Block.declared_function, h.body, Function.forward]
  by_cases hret : f.trim.returns = []
  · simp [hret, Block.declared, Block.items, Stmt.items, Item.declared]
  · simp [hret, Block.declared, Block.items, Stmt.items, Item.declared]

end Declared

namespace Program

variable {p : Program} {shim : Name → Function}

namespace Shims

variable (h : p.Shims shim)

include h

/-- No name is declared more often than it was, but for one declaration of every name in a shim. -/
theorem count_declared_of_expands {seen : List Name} {ss out : List Stmt}
    (he : p.Expands shim seen ss out) (n : Nat) (x : Name) :
    (Block.declared out).count x ≤ (Block.declared ss).count x +
      (((indexFrom n seen ss).filter fun e => (e.function.usage p).isPrunable).flatMap
        fun e => (shim e.function.name).heading).count x := by
  induction he generalizing n with
  | nil => exact Nat.zero_le _
  | @split _ ss out f hf hu hnew _ ih =>
      have hrest := ih (n + 1)
      have htrim := (Function.heading_trim_sublist f).count_le x
      have hsplit : Block.declared [.function (f.trim.mapCallees (p.callee shim))] =
          f.trim.heading ++ Block.declared f.body := by
        rw [Block.declared_function, Function.mapCallees_body, Block.declared_mapCallees]
        rfl
      rw [Block.declared_cons, hsplit, Block.declared_cons (.function (shim f.name)),
        (h.isShim hf hu).declared, Block.declared_cons (.function f) ss, Block.declared_function,
        indexFrom_function, if_neg hnew, List.filter_cons_of_pos (by simpa using hu),
        List.flatMap_cons]
      simp only [List.count_append]
      omega
  | @keep _ ss _ f _ hu hnew _ ih =>
      rw [← Stmt.mapCallees_function, Block.declared_mapCallees_cons, Block.declared_cons _ ss,
        List.count_append, List.count_append, indexFrom_function, if_neg hnew,
        List.filter_cons_of_neg (by simpa using hu), Nat.add_assoc]
      exact Nat.add_le_add_left (ih (n + 1)) _
  | @again _ ss _ f _ hseen _ ih =>
      rw [← Stmt.mapCallees_function, Block.declared_mapCallees_cons, Block.declared_cons _ ss,
        List.count_append, List.count_append, indexFrom_function, if_pos hseen, Nat.add_assoc]
      exact Nat.add_le_add_left (ih (n + 1)) _
  | @other _ ss _ s hs _ _ ih =>
      rw [Block.declared_mapCallees_cons, Block.declared_cons s ss, List.count_append,
        List.count_append, indexFrom_of_ne hs, Nat.add_assoc]
      exact Nat.add_le_add_left (ih (n + 1)) _

theorem count_declared (x : Name) :
    (p.expansion shim).declared.count x ≤ p.declared.count x + (p.shimNames shim).count x := by
  have hnames : p.shimNames shim = (p.index.filter fun e => (e.function.usage p).isPrunable).flatMap
      fun e => (shim e.function.name).heading := by
    rw [shimNames, splitNames, prunable_map_function fun f => f.name, List.flatMap_map]
  rw [hnames]
  exact h.count_declared_of_expands (p.expands_expansion shim) 0 x

theorem declared_nodup (hp : p.declared.Nodup) : (p.expansion shim).declared.Nodup := by
  rw [List.nodup_iff_count_le_one] at hp ⊢
  intro x
  have hcount := h.count_declared x
  by_cases hx : x ∈ p.shimNames shim
  · have hold : p.declared.count x = 0 :=
      List.count_eq_zero.mpr fun hmem => h.fresh hx (Block.mem_names_of_mem_declared hmem)
    have honce := List.nodup_iff_count_le_one.mp h.nodup x
    omega
  · have hnew := List.count_eq_zero.mpr hx
    have honce := hp x
    omega

/-- The names that an expansion has and the program has not are those in the shims. -/
theorem mem_names_expansion {x : Name} :
    x ∈ (p.expansion shim).names ∧ x ∉ p.names ↔ ∃ c ∈ p.splitNames, x ∈ (shim c).heading := by
  rw [← List.mem_flatMap, ← shimNames]
  constructor
  · rintro ⟨hx, hnew⟩
    exact (h.names_of_expands (p.expands_expansion shim) x hx).resolve_left hnew
  · intro hx
    obtain ⟨c, hc, hmem⟩ := List.mem_flatMap.mp hx
    refine ⟨Block.names_subset_of_mem (h.shim_mem_root hc) x ?_, h.fresh hx⟩
    exact Block.mem_names_function.mpr (Or.inl hmem)

end Shims

theorem holds_mapCallees (f : Function) : f.Holds (p.callee shim) (f.mapCallees (p.callee shim)) :=
  ⟨rfl, rfl, fun _ hx => hx, fun _ hx => hx⟩

theorem holds_trim (f : Function) :
    f.Holds (p.callee shim) (f.trim.mapCallees (p.callee shim)) where
  name := rfl
  body := rfl
  parameters h hx := List.mem_filter.mpr ⟨hx, decide_eq_true (Block.uses_iff.mp h)⟩
  returns h hx := List.mem_filter.mpr ⟨hx, decide_eq_true (Block.uses_iff.mp h)⟩

theorem holds_definitions (shim : Name → Function) {b : Block}
    (hb : ∀ f ∈ Block.definitions b, f.name ∈ p.names) :
    List.Forall₂ (Function.Holds (p.callee shim)) (Block.definitions b)
      ((Block.definitions (Block.mapCallees (p.callee shim) b)).filter (·.name ∈ p.names)) := by
  rw [Block.definitions_mapCallees, List.filter_map, List.filter_eq_self.mpr]
  · rw [List.forall₂_map_right_iff]
    exact List.forall₂_same.mpr fun f _ => holds_mapCallees f
  · exact fun f hf => decide_eq_true (hb f hf)

theorem name_mem_names_of_mem_definitions {s : Stmt} (hs : s ∈ p.root) {f : Function}
    (hf : f ∈ Block.definitions [s]) : f.name ∈ p.names := by
  have hitem := Block.mem_items_of_mem_definitions hf
  rw [Block.items_singleton] at hitem
  exact Block.name_mem_names (Block.items_subset_of_mem hs _ hitem)

theorem holds_cons {s : Stmt} (hs : s ∈ p.root) {ss out : List Stmt}
    (ih : List.Forall₂ (Function.Holds (p.callee shim)) (Block.definitions ss)
      ((Block.definitions out).filter (·.name ∈ p.names))) :
    List.Forall₂ (Function.Holds (p.callee shim)) (Block.definitions (s :: ss))
      ((Block.definitions (s.mapCallees (p.callee shim) :: out)).filter (·.name ∈ p.names)) := by
  have hfirst := holds_definitions shim fun f hf =>
    name_mem_names_of_mem_definitions hs hf
  rw [Block.definitions_cons s, Block.definitions_cons (s.mapCallees _), List.filter_append]
  exact List.rel_append hfirst ih

/-- Apart from the shims, an expansion defines what the program defines, in the same order, and each
function holds the body that it held before. -/
theorem Shims.holds_of_expands (h : p.Shims shim) {seen : List Name} {ss out : List Stmt}
    (he : p.Expands shim seen ss out) :
    List.Forall₂ (Function.Holds (p.callee shim)) (Block.definitions ss)
      ((Block.definitions out).filter (·.name ∈ p.names)) := by
  induction he with
  | nil => exact .nil
  | @split _ ss out f hf hu _ _ ih =>
      have hroot := mem_root_of_function? hf
      have hsplit := (name_mem_splitNames hf).mpr hu
      have hname : (f.trim.mapCallees (p.callee shim)).name ∈ p.names :=
        name_mem_names (f := f) hroot
      have hbody := holds_definitions shim (b := f.body) fun g hg => by
        refine name_mem_names_of_mem_definitions hroot ?_
        rw [Block.definitions_function]
        exact List.mem_cons_of_mem _ hg
      have hout : Block.definitions (.function (f.trim.mapCallees (p.callee shim)) ::
          .function (shim f.name) :: out) = f.trim.mapCallees (p.callee shim) ::
            (Block.definitions (Block.mapCallees (p.callee shim) f.body) ++
              shim f.name :: Block.definitions out) := by
        rw [Block.definitions_cons, Block.definitions_function,
          Block.definitions_cons (.function (shim f.name)), Block.definitions_function,
          (h.isShim hf hu).definitions]
        rfl
      rw [Block.definitions_cons (.function f), Block.definitions_function, hout,
        List.filter_cons, if_pos (decide_eq_true hname), List.filter_append,
        List.filter_cons_of_neg (by simpa using h.name_not_mem_names hsplit)]
      exact .cons (holds_trim f) (List.rel_append hbody ih)
  | keep hf _ _ _ ih =>
      rw [← Stmt.mapCallees_function]
      exact holds_cons (mem_root_of_function? hf) ih
  | again hf _ _ ih =>
      rw [← Stmt.mapCallees_function]
      exact holds_cons hf ih
  | other _ hmem _ ih => exact holds_cons hmem ih

end Program

/-- The pass adds one name for every split function, and one for each of its slots, all different
and none of them in the program. It leaves no name declared twice that was declared once, and no
slot dropped that a body uses. -/
theorem runPruner_names (p : Program) :
    ∃ w shim, runPruner (.ofProgram p) = .ok (!p.prunable.isEmpty) w ∧
      w.program = p.expansion shim ∧
      (∀ c ∈ p.splitNames, Stmt.function (shim c) ∈ w.program.root ∧
        ∃ f, p.function? c = some f ∧ (shim c).parameters.length = f.parameters.length ∧
          (shim c).returns.length = f.returns.length) ∧
      (∀ x, w.program.Mentions x ∧ ¬ p.Mentions x ↔ ∃ c ∈ p.splitNames, x ∈ (shim c).heading) ∧
      (p.splitNames.flatMap fun c => (shim c).heading).Nodup ∧
      (p.declared.Nodup → w.program.declared.Nodup) ∧
      List.Forall₂ (Function.Holds (p.callee shim)) (Block.definitions p.root)
        ((Block.definitions w.program.root).filter (·.name ∈ p.names)) := by
  obtain ⟨w, shim, hrun, hshims, hprogram⟩ := runPruner_ofProgram p
  refine ⟨w, shim, hrun, hprogram, ?_, ?_, hshims.nodup, ?_, ?_⟩
  · intro c hc
    obtain ⟨f, hf, -, hshim⟩ := hshims.isShim_of_mem hc
    rw [hprogram]
    exact ⟨hshims.shim_mem_root hc, f, hf, hshim.parameters_length, hshim.returns_length⟩
  · intro x
    rw [hprogram, Program.mentions_iff, Program.mentions_iff]
    exact hshims.mem_names_expansion
  · rw [hprogram]
    exact hshims.declared_nodup
  · rw [hprogram]
    exact hshims.holds_of_expands (p.expands_expansion shim)

def numberedSlot : Function := ⟨"f", ["a", "a_1"], ["r"], [.block [.assignment ["r"] (.var "a")]]⟩

/-- The first numbers for its function and for the slot that is used are taken. -/
def numbersTaken : Program where
  root := [.declaration ["f_1"] (some (.call "f" [.literal (.number 1), .literal (.number 2)])),
    .function numberedSlot]

theorem runPruner_names_numbersTaken :
    numbersTaken.declared.Nodup ∧ numbersTaken.Mentions "f_1" ∧
    ∃ w, ∃ g : Function, runPruner (.ofProgram numbersTaken) = .ok true w ∧
      Stmt.function g ∈ w.program.root ∧ g.parameters.length = 2 ∧ g.returns.length = 1 ∧
      g.heading.Nodup ∧ (∀ x ∈ g.heading, w.program.Mentions x ∧ ¬ numbersTaken.Mentions x) ∧
      w.program.declared.Nodup ∧
      ∃ f ∈ Block.definitions w.program.root, f.name = "f" ∧ "a" ∈ f.parameters ∧
        "r" ∈ f.returns := by
  have hdeclared : numbersTaken.declared.Nodup := by decide
  have htaken : numbersTaken.Mentions "f_1" := Program.mentions_iff.mpr (by decide)
  have hsplit : numbersTaken.splitNames = ["f"] := by decide
  have hfound : numbersTaken.function? "f" = some numberedSlot := rfl
  have hdefinitions : Block.definitions numbersTaken.root = [numberedSlot] := rfl
  obtain ⟨w, shim, hrun, -, hshim, hnames, hnodup, honce, hholds⟩ := runPruner_names numbersTaken
  rw [hsplit] at hshim hnames hnodup
  obtain ⟨hroot, f, hf, hparameters, hreturns⟩ := hshim "f" List.mem_cons_self
  obtain rfl := Option.some.inj (hf.symm.trans hfound)
  rw [List.flatMap_singleton] at hnodup
  refine ⟨hdeclared, htaken, w, shim "f", hrun, hroot, hparameters, hreturns, hnodup,
    fun x hx => (hnames x).mpr ⟨"f", List.mem_cons_self, hx⟩, honce hdeclared, ?_⟩
  rw [hdefinitions] at hholds
  obtain ⟨g, gs, hg, -, hgs⟩ := List.forall₂_cons_left_iff.mp hholds
  have hmem : g ∈ Block.definitions w.program.root :=
    List.mem_of_mem_filter (hgs ▸ List.mem_cons_self)
  have hread : Block.Uses numberedSlot.body "a" := Block.uses_iff.mpr (by decide)
  have hassigned : Block.Uses numberedSlot.body "r" := Block.uses_iff.mpr (by decide)
  exact ⟨g, hmem, hg.name, hg.parameters hread (by decide), hg.returns hassigned (by decide)⟩

end YulPruner
