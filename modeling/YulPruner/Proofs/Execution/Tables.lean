import YulPruner.Proofs.Analysis.Index
import YulPruner.Proofs.Analysis.Precondition
import YulPruner.Proofs.Execution.Call

namespace YulPruner

theorem nested?_eq_none {b : Block} : nested? b = none ↔ Block.definitions b = [] := by
  rw [nested?, Option.map_eq_none_iff, List.head?_eq_none_iff]

theorem definitions_of_hoistingViolation? {seen : List Name} {ss : List Stmt}
    (h : hoistingViolation? seen ss = none) :
    Block.definitions ss = (Program.mk ss).functions ∧
      ((Program.mk ss).functions.map (·.name)).Nodup ∧
      ∀ f ∈ (Program.mk ss).functions, f.name ∉ seen := by
  induction ss using rootInduction generalizing seen with
  | nil => exact ⟨rfl, List.nodup_nil, by simp [Program.functions]⟩
  | function f ss ih =>
      rw [hoistingViolation?_function] at h
      by_cases hf : f.name ∈ seen
      · rw [if_pos hf] at h
        cases h
      rw [if_neg hf, Option.or_eq_none_iff] at h
      obtain ⟨hdefinitions, hnodup, hnew⟩ := ih h.2
      rw [Block.definitions_cons, Block.definitions_function, nested?_eq_none.mp h.1, hdefinitions,
        Program.functions_cons]
      refine ⟨rfl, ?_, ?_⟩
      · refine List.nodup_cons.mpr ⟨?_, hnodup⟩
        intro hmem
        obtain ⟨g, hg, hname⟩ := List.mem_map.mp hmem
        exact hnew g hg (hname ▸ List.mem_cons_self)
      · intro g hg
        rcases List.mem_cons.mp hg with rfl | hg
        · exact hf
        · exact fun hmem => hnew g hg (List.mem_cons_of_mem _ hmem)
  | other s ss hs ih =>
      rw [hoistingViolation?_of_ne hs, Option.or_eq_none_iff] at h
      rw [Block.definitions_cons, nested?_eq_none.mp h.1, List.nil_append,
        Program.functions_cons_of_ne hs]
      exact ih h.2

namespace Program

variable {p : Program}

theorem definition?_eq_function? (h : p.verifyHoisting = .ok ()) (c : Name) :
    definition? (Block.definitions p.root) c = p.function? c := by
  obtain ⟨hdefinitions, hnodup, -⟩ := definitions_of_hoistingViolation? (report_eq_ok.mp h)
  have hreverse : (p.functions.reverse.map (·.name)).Nodup := by
    rw [List.map_reverse]
    exact List.nodup_reverse.mpr hnodup
  rw [definition?, hdefinitions, List.findRev?_eq_find?_reverse, function?]
  ext f
  rw [find?_name_eq_some hreverse, find?_name_eq_some hnodup, List.mem_reverse]

theorem lengths_of_verifyArity (h : p.verifyArity = .ok ()) {site : CallSite}
    (hsite : site ∈ Block.callSites p.root) {f : Function} (hf : p.function? site.callee = some f) :
    f.parameters.length = site.passed ∧ f.returns.length = site.bound := by
  have hnone := List.findSome?_eq_none_iff.mp (report_eq_ok.mp h) site hsite
  rw [arityViolation?, hf] at hnone
  by_contra hlengths
  simp [hlengths] at hnone

variable (h : p.verify = .ok ())

include h

theorem linksTables_self : LinksTables (Block.definitions p.root) (Block.definitions p.root)
    (fun c => c) (Block.callSites p.root) := by
  obtain ⟨hhoisting, harity⟩ := verify_eq_ok.mp h
  refine ⟨?_, ?_, ?_⟩
  · intro site _
    cases hf : definition? (Block.definitions p.root) site.callee with
    | none => exact .absent hf hf rfl
    | some f =>
        exact .kept hf (f.mapCallees_id.symm ▸ hf)
  · intro site f hsite hf
    rw [definition?_eq_function? hhoisting] at hf
    exact (lengths_of_verifyArity harity hsite hf).1
  · intro site f _ hf
    rw [definition?_eq_function? hhoisting] at hf
    exact Block.callSites_body_subset (mem_functions.mp (mem_functions_of_function? hf))

theorem Shims.linksCallee {shim : Name → Function} (hshims : p.Shims shim)
    (hkeeps : ∀ f ∈ p.functions, f.KeepsReturns) {c : Name} (hname : c ∈ p.names) :
    LinksCallee (Block.definitions p.root) (Block.definitions (p.expansion shim).root)
      (p.callee shim) c := by
  obtain ⟨hhoisting, -⟩ := verify_eq_ok.mp h
  have hhoisting' : (p.expansion shim).verifyHoisting = .ok () :=
    hshims.verifyHoisting_expansion.trans hhoisting
  have hfound := hshims.function?_expansion_of_mem_names hname
  cases hf : p.function? c with
  | none =>
      have hsplit : c ∉ p.splitNames := by
        intro hmem
        obtain ⟨f, hsome, -⟩ := mem_splitNames.mp hmem
        rw [hf] at hsome
        cases hsome
      rw [hf, Option.map_none] at hfound
      refine .absent ?_ ?_ (callee_of_not_mem hsplit)
      · rw [definition?_eq_function? hhoisting, hf]
      · rw [definition?_eq_function? hhoisting', hfound]
  | some f =>
      have hcallee : f.name = c := name_of_function? hf
      rw [hf, Option.map_some] at hfound
      by_cases hsplit : c ∈ p.splitNames
      · obtain ⟨g, hg, -, hshim⟩ := hshims.isShim_of_mem hsplit
        cases hf.symm.trans hg
        rw [retained_of_mem (hcallee ▸ hsplit)] at hfound
        refine .split ?_ ?_ hshim (hshims.heading_nodup hsplit) ?_
          (hkeeps f (mem_functions_of_function? hf))
        · rw [definition?_eq_function? hhoisting, hf]
        · rw [definition?_eq_function? hhoisting', callee_of_mem hsplit, hshims.function?_shim hsplit]
        · rw [definition?_eq_function? hhoisting', hcallee, hfound]
      · rw [retained_of_not_mem (hcallee ▸ hsplit)] at hfound
        refine .kept (f := f) ?_ ?_
        · rw [definition?_eq_function? hhoisting, hf]
        · rw [definition?_eq_function? hhoisting', callee_of_not_mem hsplit, hfound]

theorem Shims.linksTables {shim : Name → Function} (hshims : p.Shims shim)
    (hkeeps : ∀ f ∈ p.functions, f.KeepsReturns) :
    LinksTables (Block.definitions p.root) (Block.definitions (p.expansion shim).root)
      (p.callee shim) (Block.callSites p.root) := by
  have hself := linksTables_self h
  refine ⟨?_, hself.arity, hself.body⟩
  exact fun hsite => hshims.linksCallee h hkeeps (Block.callee_mem_names hsite)

end Program

end YulPruner
