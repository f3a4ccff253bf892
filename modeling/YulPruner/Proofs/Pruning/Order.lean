import YulPruner.Proofs.Analysis.Usage
import YulPruner.Proofs.Naming.Least
import YulPruner.Proofs.Pruning.Redirected
import Mathlib.Data.List.Flatten

namespace YulPruner

def Function.shim (naming : Name → Name) (f : Function) : Function where
  name := naming f.name
  parameters := f.parameters.map naming
  returns := f.returns.map naming
  body := forwardingBody f.name (f.trim.parameters.map naming) (f.trim.returns.map naming)

namespace Program

/-- The name that is drawn for a hint when only the names of the program are in use. -/
def freshName (p : Program) : Name → Name := NameSupply.firstFresh p.names

def newCallee (p : Program) (c : Name) : Name := if c ∈ p.splitNames then p.freshName c else c

def expandFunction (p : Program) (f : Function) : List Function :=
  if f.name ∈ p.splitNames then [f.trim.mapCallees p.newCallee, f.shim p.freshName]
  else [f.mapCallees p.newCallee]

def expandStmt (p : Program) : Stmt → List Stmt
  | .function f => (p.expandFunction f).map .function
  | s => [s.mapCallees p.newCallee]

end Program

section Draw

variable (names : List Name)

theorem draws_mapM_fresh {xs : List Name} (h : xs.Nodup) :
    NameSupply.Draws names xs (xs.mapM NameSupply.fresh) (xs.map (NameSupply.firstFresh names)) := by
  have hxs : xs.flatMap (fun x => [x]) = xs := List.flatMap_singleton' xs
  have hdraws : NameSupply.Draws names (xs.flatMap fun x => [x]) (xs.mapM NameSupply.fresh)
      (xs.map (NameSupply.firstFresh names)) :=
    NameSupply.Draws.mapM (fun x _ => NameSupply.draws_fresh names x) (hxs.symm ▸ h)
  rwa [hxs] at hdraws

theorem Function.selectUsed_map (f : Function) (naming : Name → Name) (xs : List Name) :
    selectUsed (xs.map naming) (xs.map (usageIn (Block.references f.body))) =
      (xs.filter (· ∈ Block.references f.body)).map naming := by
  rw [selectUsed_map_usageIn, ← f.mentioned_self xs]
  exact f.mentioned_map naming xs xs

theorem Function.draws_split (p : Program) {f : Function} (h : f.heading.Nodup) :
    NameSupply.Draws names f.heading (f.split (f.usage p))
      ⟨f.trim, f.shim (NameSupply.firstFresh names)⟩ := by
  obtain ⟨hparameters, hreturns, -⟩ := slots_nodup_of_heading h
  have hheading : f.heading = [f.name] ++ (f.parameters ++ (f.returns ++ [])) := by simp [heading]
  rw [hheading] at h ⊢
  have hslots := h.of_append_right
  refine (NameSupply.draws_fresh names f.name).bind ?_ h
  refine (draws_mapM_fresh names hparameters).bind ?_ hslots
  refine (draws_mapM_fresh names hreturns).bind ?_ hslots.of_append_right
  have hsplit : (⟨f.trim, f.shim (NameSupply.firstFresh names)⟩ : Split) =
      ⟨f.reduce (f.usage p), NameSupply.firstFresh names f.name,
        f.parameters.map (NameSupply.firstFresh names), f.returns.map (NameSupply.firstFresh names),
        forwardingBody f.name
          (selectUsed (f.parameters.map (NameSupply.firstFresh names)) (f.usage p).parameters)
          (selectUsed (f.returns.map (NameSupply.firstFresh names)) (f.usage p).returns)⟩ := by
    rw [f.reduce_usage, usage, f.selectUsed_map, f.selectUsed_map, shim, trim]
  rw [hsplit]
  exact NameSupply.Draws.pure _

end Draw

theorem name_not_mem_cons {f : Function} {functions : List Function} {seen : List Name}
    (hf : f.name ∉ functions.map (·.name)) (hnew : ∀ g ∈ functions, g.name ∉ seen) :
    ∀ g ∈ functions, g.name ∉ f.name :: seen := by
  intro g hg hmem
  rcases List.mem_cons.mp hmem with hname | hmem
  · exact hf (List.mem_map.mpr ⟨g, hg, hname⟩)
  · exact hnew g hg hmem

theorem indexFrom_map_function (n : Nat) (seen : List Name) {ss : List Stmt}
    (hnodup : ((Program.mk ss).functions.map (·.name)).Nodup)
    (hnew : ∀ f ∈ (Program.mk ss).functions, f.name ∉ seen) :
    (indexFrom n seen ss).map (·.function) = (Program.mk ss).functions := by
  induction ss using rootInduction generalizing n seen with
  | nil => rfl
  | function f ss ih =>
      rw [Program.functions_cons] at hnodup hnew ⊢
      obtain ⟨hf, hrest⟩ := List.nodup_cons.mp hnodup
      obtain ⟨hfnew, hnew⟩ := List.forall_mem_cons.mp hnew
      rw [indexFrom_function, if_neg hfnew, List.map_cons,
        ih (n + 1) (f.name :: seen) hrest (name_not_mem_cons hf hnew)]
  | other s ss hs ih =>
      rw [Program.functions_cons_of_ne hs] at hnodup hnew ⊢
      rw [indexFrom_of_ne hs]
      exact ih (n + 1) seen hnodup hnew

namespace Program

/-- No name is given twice in the headings of the functions at the top level. -/
def DistinctHeadings (p : Program) : Prop := (p.functions.flatMap Function.heading).Nodup

def freshSplit (p : Program) (eu : IndexEntry × FunctionUsage) : PrunedFunction :=
  ⟨eu.1, eu.2, ⟨eu.1.function.trim, eu.1.function.shim p.freshName⟩⟩

namespace DistinctHeadings

variable {p : Program} (h : p.DistinctHeadings)

include h

theorem names_nodup : (p.functions.map (·.name)).Nodup := by
  obtain ⟨-, hdisjoint⟩ := List.nodup_flatMap.mp h
  refine List.pairwise_map.mpr (hdisjoint.imp fun {f g} hfg hname => ?_)
  exact hfg List.mem_cons_self (hname ▸ List.mem_cons_self)

theorem heading_nodup {f : Function} (hf : f ∈ p.functions) : f.heading.Nodup :=
  (List.nodup_flatMap.mp h).1 f hf

theorem index_map_function : p.index.map (·.function) = p.functions :=
  indexFrom_map_function 0 [] h.names_nodup fun _ _ => List.not_mem_nil

theorem prunable_map_function : p.prunable.map (·.1.function) =
    p.functions.filter fun f => (f.usage p).isPrunable := by
  rw [← h.index_map_function, List.filter_map]
  exact Program.prunable_map_function fun f => f

theorem function?_of_mem {f : Function} (hf : f ∈ p.functions) : p.function? f.name = some f :=
  (find?_name_eq_some h.names_nodup).mpr ⟨hf, rfl⟩

theorem function_mem_functions {eu : IndexEntry × FunctionUsage} (heu : eu ∈ p.prunable) :
    eu.1.function ∈ p.functions := by
  have hfunction : eu.1.function ∈ p.prunable.map (·.1.function) := List.mem_map_of_mem heu
  rw [h.prunable_map_function] at hfunction
  exact List.mem_of_mem_filter hfunction

theorem hints_nodup : (p.prunable.flatMap fun eu => eu.1.function.heading).Nodup := by
  have hsub := (List.filter_sublist (p := fun f : Function => (f.usage p).isPrunable)
    (l := p.functions)).flatMap Function.heading
  rw [← h.prunable_map_function, List.flatMap_map] at hsub
  exact List.Nodup.sublist hsub h

theorem splitPrunable_draws : NameSupply.Draws p.names
    (p.prunable.flatMap fun eu => eu.1.function.heading) p.splitPrunable
      (p.prunable.map p.freshSplit) := by
  refine NameSupply.Draws.mapM (fun eu heu => ?_) h.hints_nodup
  obtain ⟨-, husage, -⟩ := mem_prunable.mp heu
  have hheading := h.heading_nodup (h.function_mem_functions heu)
  have hsplit := Function.draws_split p.names p hheading
  rw [← husage] at hsplit
  rw [← List.append_nil eu.1.function.heading] at hheading ⊢
  exact NameSupply.Draws.bind hsplit (NameSupply.Draws.pure _) hheading

theorem splitPrunable_ofProgram :
    (p.splitPrunable (.ofProgram p)).1 = p.prunable.map p.freshSplit :=
  (h.splitPrunable_draws [] _ (NameSupply.drew_ofNames p.names) fun _ _ => List.not_mem_nil).1

theorem shimOf_map_freshSplit {f : Function} (hf : f ∈ p.functions)
    (hsplit : f.name ∈ p.splitNames) :
    shimOf (p.prunable.map p.freshSplit) f.name = f.shim p.freshName := by
  obtain ⟨hfs, -⟩ := splitInto_splitPrunable (.ofProgram p) fun _ hx => hx
  rw [h.splitPrunable_ofProgram] at hfs
  obtain ⟨e, he, rfl⟩ := exists_mem_index (h.function?_of_mem hf)
  have hu := (name_mem_splitNames (h.function?_of_mem hf)).mp hsplit
  have hmem := List.mem_map_of_mem (f := p.freshSplit) (mem_prunable.mpr ⟨he, rfl, hu⟩)
  exact hfs.shimOf_eq hmem

theorem callee_shimOf : p.callee (shimOf (p.prunable.map p.freshSplit)) = p.newCallee := by
  funext c
  by_cases hc : c ∈ p.splitNames
  · obtain ⟨f, hf, -⟩ := mem_splitNames.mp hc
    obtain rfl := name_of_function? hf
    rw [callee_of_mem hc, h.shimOf_map_freshSplit (mem_functions_of_function? hf) hc, newCallee,
      if_pos hc]
    rfl
  · rw [callee_of_not_mem hc, newCallee, if_neg hc]

theorem pieces_shimOf {f : Function} (hf : f ∈ p.functions) :
    p.pieces (shimOf (p.prunable.map p.freshSplit)) f = p.expandFunction f := by
  rw [pieces, expandFunction, h.callee_shimOf]
  by_cases hsplit : f.name ∈ p.splitNames
  · rw [if_pos hsplit, if_pos hsplit, h.shimOf_map_freshSplit hf hsplit]
  · rw [if_neg hsplit, if_neg hsplit]

theorem expandFrom_shimOf {seen : List Name} {ss : List Stmt} (hss : ∀ s ∈ ss, s ∈ p.root)
    (hnodup : ((Program.mk ss).functions.map (·.name)).Nodup)
    (hnew : ∀ f ∈ (Program.mk ss).functions, f.name ∉ seen) :
    p.expandFrom (shimOf (p.prunable.map p.freshSplit)) seen ss = ss.flatMap p.expandStmt := by
  induction ss using rootInduction generalizing seen with
  | nil => rfl
  | function f ss ih =>
      rw [functions_cons] at hnodup hnew
      obtain ⟨hf, hrest⟩ := List.nodup_cons.mp hnodup
      obtain ⟨hfnew, hnew⟩ := List.forall_mem_cons.mp hnew
      obtain ⟨hroot, hss⟩ := List.forall_mem_cons.mp hss
      rw [expandFrom_function, if_neg hfnew, h.pieces_shimOf (mem_functions.mpr hroot),
        ih hss hrest (name_not_mem_cons hf hnew), List.flatMap_cons, expandStmt]
  | other s ss hs ih =>
      rw [functions_cons_of_ne hs] at hnodup hnew
      obtain ⟨-, hss⟩ := List.forall_mem_cons.mp hss
      have hstmt : p.expandStmt s = [s.mapCallees p.newCallee] := by
        cases s with
        | function f => exact absurd rfl (hs f)
        | _ => rfl
      rw [expandFrom_of_ne _ _ hs, ih hss hnodup hnew, h.callee_shimOf, List.flatMap_cons, hstmt,
        List.singleton_append]

theorem expansion_shimOf : (p.expansion (shimOf (p.prunable.map p.freshSplit))).root =
    p.root.flatMap p.expandStmt :=
  h.expandFrom_shimOf (fun _ hs => hs) h.names_nodup fun _ _ => List.not_mem_nil

theorem root_flatMap_expandStmt (hp : p.prunable = []) : p.root.flatMap p.expandStmt = p.root := by
  rw [← h.expansion_shimOf, expansion_eq_self hp]

theorem prune_ofProgram :
    (p.prune (.ofProgram p)).1.functions = p.prunable.map p.freshSplit ∧
      (p.prune (.ofProgram p)).1.program.root = p.root.flatMap p.expandStmt ∧
      (p.prune (.ofProgram p)).1.callSites =
        (Block.callSites p.root).countP (·.callee ∈ p.splitNames) := by
  obtain ⟨hfs, -, hfresh⟩ := splitInto_splitPrunable (.ofProgram p) fun _ hx => hx
  have hname := shimName_not_mem hfresh
  refine ⟨h.splitPrunable_ofProgram, ?_, hfs.redirected_expandSplits hname⟩
  have hroot := congrArg Program.root (hfs.redirect_expandSplits hname)
  rw [h.splitPrunable_ofProgram, h.expansion_shimOf] at hroot
  rw [← hroot, ← h.splitPrunable_ofProgram]
  rfl

end DistinctHeadings

section Permutation

variable {p q : Program} (hperm : q.root.Perm p.root)

include hperm

theorem functions_perm : q.functions.Perm p.functions := hperm.filterMap _

theorem callSites_perm : (Block.callSites q.root).Perm (Block.callSites p.root) := by
  rw [Block.callSites, Block.items_eq_flatMap, Block.callSites, Block.items_eq_flatMap]
  exact (hperm.flatMap_right _).flatMap_right _

theorem freshName_perm : q.freshName = p.freshName := by
  apply NameSupply.firstFresh_congr
  intro x
  rw [names, names, Block.names, Block.items_eq_flatMap, Block.names, Block.items_eq_flatMap]
  exact ((hperm.flatMap_right _).flatMap_right _).mem_iff

theorem DistinctHeadings.perm (h : p.DistinctHeadings) : q.DistinctHeadings :=
  (((functions_perm hperm).flatMap_right _).nodup_iff).mpr h

variable (h : p.DistinctHeadings)

include h

theorem function?_perm : q.function? = p.function? := by
  funext c
  ext f
  rw [function?, function?, find?_name_eq_some (h.perm hperm).names_nodup,
    find?_name_eq_some h.names_nodup, (functions_perm hperm).mem_iff]

theorem usage_perm (f : Function) : f.usage q = f.usage p := by
  simp only [Function.usage, Function.isForwarding_eq, Function.passesOn, defines,
    function?_perm hperm h]

theorem mem_splitNames_perm (c : Name) : c ∈ q.splitNames ↔ c ∈ p.splitNames := by
  rw [mem_splitNames, mem_splitNames, function?_perm hperm h]
  simp only [usage_perm hperm h]

theorem newCallee_perm : q.newCallee = p.newCallee := by
  funext c
  simp only [newCallee, mem_splitNames_perm hperm h, freshName_perm hperm]

theorem expandStmt_perm : q.expandStmt = p.expandStmt := by
  funext s
  cases s with
  | function f =>
      simp only [expandStmt, expandFunction, mem_splitNames_perm hperm h, newCallee_perm hperm h,
        freshName_perm hperm]
  | _ => simp only [expandStmt, newCallee_perm hperm h]

theorem prunable_map_function_perm :
    (q.prunable.map (·.1.function)).Perm (p.prunable.map (·.1.function)) := by
  rw [(h.perm hperm).prunable_map_function, h.prunable_map_function]
  simp only [usage_perm hperm h]
  exact (functions_perm hperm).filter _

theorem prunable_isEmpty_perm : q.prunable.isEmpty = p.prunable.isEmpty := by
  have hempty := (prunable_map_function_perm hperm h).isEmpty_eq
  rwa [List.isEmpty_map, List.isEmpty_map] at hempty

theorem prune_callSites_perm :
    (q.prune (.ofProgram q)).1.callSites = (p.prune (.ofProgram p)).1.callSites := by
  rw [(h.perm hperm).prune_ofProgram.2.2, h.prune_ofProgram.2.2]
  simp only [mem_splitNames_perm hperm h]
  exact (callSites_perm hperm).countP_eq _

end Permutation

end Program

end YulPruner
