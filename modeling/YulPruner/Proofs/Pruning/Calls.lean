import YulPruner.Proofs.Pruning.Lookup

namespace YulPruner

namespace Program

variable {p : Program} {shim : Name → Function}

theorem prunable_map_function {α : Type} (k : Function → α) :
    p.prunable.map (fun eu => k eu.1.function) =
      (p.index.filter fun e => (e.function.usage p).isPrunable).map fun e => k e.function := by
  rw [prunable, usages, List.filter_map, List.map_map]
  rfl

namespace Shims

variable (h : p.Shims shim)

include h

theorem isShim_of_mem {c : Name} (hc : c ∈ p.splitNames) :
    ∃ f, p.function? c = some f ∧ f.name = c ∧ (shim c).IsShim f := by
  obtain ⟨f, hf, hu⟩ := mem_splitNames.mp hc
  obtain rfl := name_of_function? hf
  exact ⟨f, hf, rfl, h.isShim hf hu⟩

theorem callees_shim {c : Name} (hc : c ∈ p.splitNames) :
    (Block.callSites (shim c).body).map CallSite.callee = [c] := by
  obtain ⟨f, -, rfl, hshim⟩ := h.isShim_of_mem hc
  rw [hshim.callSites]
  rfl

theorem shim_mem_root {c : Name} (hc : c ∈ p.splitNames) :
    Stmt.function (shim c) ∈ (p.expansion shim).root :=
  mem_root_of_function? (h.function?_shim hc)

theorem callee_not_mem_splitNames (c : Name) : p.callee shim c ∉ p.splitNames := by
  by_cases hc : c ∈ p.splitNames
  · rw [callee_of_mem hc]
    exact fun hmem => h.name_not_mem_names hc (splitNames_subset_names hmem)
  · rwa [callee_of_not_mem hc]

theorem filter_mapCallee (sites : List CallSite) :
    ((sites.map (·.mapCallee (p.callee shim))).filter fun site => site.callee ∈ p.splitNames) = [] := by
  rw [List.filter_eq_nil_iff]
  intro site hsite
  obtain ⟨s, -, rfl⟩ := List.mem_map.mp hsite
  exact fun hmem => h.callee_not_mem_splitNames s.callee (of_decide_eq_true hmem)

theorem filter_mapCallee_not (sites : List CallSite) :
    ((sites.map (·.mapCallee (p.callee shim))).filter fun site => site.callee ∉ p.splitNames) =
      sites.map (·.mapCallee (p.callee shim)) := by
  rw [List.filter_eq_self]
  intro site hsite
  obtain ⟨s, -, rfl⟩ := List.mem_map.mp hsite
  exact decide_eq_true (h.callee_not_mem_splitNames s.callee)

theorem callSites_split {f : Function} (hf : p.function? f.name = some f)
    (hu : (f.usage p).isPrunable) (out : List Stmt) :
    Block.callSites (.function (f.trim.mapCallees (p.callee shim)) :: .function (shim f.name) :: out) =
      (Block.callSites f.body).map (·.mapCallee (p.callee shim)) ++
        f.forwardSite :: Block.callSites out := by
  rw [Block.callSites_cons, Block.callSites_function, Block.callSites_cons (.function (shim f.name)),
    Block.callSites_function, (h.isShim hf hu).callSites, List.singleton_append]
  exact congrArg (· ++ _) (Block.callSites_mapCallees _ f.body)

omit h in
theorem callSites_mapCallees_cons (s : Stmt) (out : List Stmt) :
    Block.callSites (s.mapCallees (p.callee shim) :: out) =
      (Block.callSites [s]).map (·.mapCallee (p.callee shim)) ++ Block.callSites out := by
  rw [Block.callSites_cons, ← Block.callSites_mapCallees, Block.mapCallees, Block.mapCallees]

theorem filter_callSites_of_expands {seen : List Name} {ss out : List Stmt}
    (he : p.Expands shim seen ss out) (n : Nat) :
    ((Block.callSites out).filter fun site => site.callee ∈ p.splitNames) =
      ((indexFrom n seen ss).filter fun e => (e.function.usage p).isPrunable).map
        fun e => e.function.forwardSite := by
  induction he generalizing n with
  | nil => rfl
  | @split _ _ _ f hf hu hnew _ ih =>
      have hsite : f.forwardSite.callee ∈ p.splitNames := (name_mem_splitNames hf).mpr hu
      rw [h.callSites_split hf hu, indexFrom_function, if_neg hnew, List.filter_append,
        h.filter_mapCallee, List.filter_cons_of_pos (by simpa using hsite), ih (n + 1),
        List.filter_cons_of_pos (by simpa using hu), List.map_cons, List.nil_append]
  | @keep _ _ _ f hf hu hnew _ ih =>
      rw [← Stmt.mapCallees_function, callSites_mapCallees_cons, indexFrom_function, if_neg hnew,
        List.filter_append, h.filter_mapCallee, ih (n + 1),
        List.filter_cons_of_neg (by simpa using hu), List.nil_append]
  | again _ hseen _ ih =>
      rw [← Stmt.mapCallees_function, callSites_mapCallees_cons, indexFrom_function, if_pos hseen,
        List.filter_append, h.filter_mapCallee, ih (n + 1), List.nil_append]
  | other hs _ _ ih =>
      rw [callSites_mapCallees_cons, indexFrom_of_ne hs, List.filter_append, h.filter_mapCallee,
        ih (n + 1), List.nil_append]

theorem filter_callSites_not_of_expands {seen : List Name} {ss out : List Stmt}
    (he : p.Expands shim seen ss out) :
    ((Block.callSites out).filter fun site => site.callee ∉ p.splitNames) =
      (Block.callSites ss).map (·.mapCallee (p.callee shim)) := by
  induction he with
  | nil => rfl
  | @split _ ss _ f hf hu _ _ ih =>
      have hsite : f.forwardSite.callee ∈ p.splitNames := (name_mem_splitNames hf).mpr hu
      rw [h.callSites_split hf hu, List.filter_append, h.filter_mapCallee_not,
        List.filter_cons_of_neg (by simpa using hsite), ih, Block.callSites_cons (.function f) ss,
        Block.callSites_function, List.map_append]
  | @keep _ ss _ f _ _ _ _ ih | @again _ ss _ f _ _ _ ih =>
      rw [← Stmt.mapCallees_function, callSites_mapCallees_cons, List.filter_append,
        h.filter_mapCallee_not, ih, Block.callSites_cons (.function f) ss, List.map_append]
  | @other _ ss _ s _ _ _ ih =>
      rw [callSites_mapCallees_cons, List.filter_append, h.filter_mapCallee_not, ih,
        Block.callSites_cons s ss, List.map_append]

/-- Split functions are called in their shims only, once in each. -/
theorem filter_callSites :
    ((Block.callSites (p.expansion shim).root).filter fun site => site.callee ∈ p.splitNames) =
      p.prunable.map fun eu => eu.1.function.forwardSite := by
  rw [prunable_map_function]
  exact h.filter_callSites_of_expands (p.expands_expansion shim) 0

theorem filter_callSites_not :
    ((Block.callSites (p.expansion shim).root).filter fun site => site.callee ∉ p.splitNames) =
      (Block.callSites p.root).map (·.mapCallee (p.callee shim)) :=
  h.filter_callSites_not_of_expands (p.expands_expansion shim)

theorem length_callSites : (Block.callSites (p.expansion shim).root).length =
    (Block.callSites p.root).length + p.prunable.length := by
  have hlength := List.length_eq_length_filter_add
    (l := Block.callSites (p.expansion shim).root) fun site => site.callee ∈ p.splitNames
  have hnot := congrArg List.length h.filter_callSites_not
  simp only [decide_not, List.length_map] at hnot
  rw [hlength, hnot, h.filter_callSites, List.length_map, Nat.add_comm]

theorem count_callSites {c : Name} (hc : c ∈ p.splitNames) :
    ((Block.callSites (p.expansion shim).root).map CallSite.callee).count c = 1 := by
  have hnames : (((Block.callSites (p.expansion shim).root).filter fun site =>
      site.callee ∈ p.splitNames).map CallSite.callee) = p.splitNames := by
    rw [h.filter_callSites, List.map_map]
    rfl
  have hcount := congrArg (List.count c) hnames
  rw [List.count_eq_one_of_mem splitNames_nodup hc] at hcount
  rw [← hcount, List.count_eq_countP, List.countP_map, List.count_eq_countP, List.countP_map,
    List.countP_filter]
  refine List.countP_congr fun site _ => ?_
  simp only [Function.comp_apply, beq_iff_eq, Bool.and_eq_true, decide_eq_true_eq]
  exact ⟨fun hsite => ⟨hsite, hsite ▸ hc⟩, fun hsite => hsite.1⟩

end Shims

end Program

end YulPruner
