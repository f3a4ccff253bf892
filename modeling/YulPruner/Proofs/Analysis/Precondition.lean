import YulPruner.Analysis.Precondition
import YulPruner.Proofs.Pruning.Calls

namespace YulPruner

def Violation.mapCallee (ρ : Name → Name) : Violation → Violation
  | .arityMismatch site parameters returns => .arityMismatch (site.mapCallee ρ) parameters returns
  | v => v

theorem report_map (v : Option Violation) (k : Violation → Violation) :
    report (v.map k) = (report v).mapError k := by
  cases v <;> rfl

theorem report_eq_ok {v : Option Violation} : report v = .ok () ↔ v = none := by
  cases v <;> simp [report]

theorem report_eq_error {v : Option Violation} {w : Violation} :
    report v = .error w ↔ v = some w := by
  cases v <;> simp [report]

theorem Program.verify_eq_ok {p : Program} :
    p.verify = .ok () ↔ p.verifyHoisting = .ok () ∧ p.verifyArity = .ok () := by
  rw [verify]
  cases p.verifyHoisting with
  | error v => exact iff_of_false (by simp [bind, Except.bind]) (by simp)
  | ok => exact (and_iff_right rfl).symm

theorem nested?_mapCallees (ρ : Name → Name) (b : Block) :
    nested? (Block.mapCallees ρ b) = nested? b := by
  rw [nested?, Block.definitions_mapCallees, List.head?_map, Option.map_map, nested?]
  rfl

theorem hoistingViolation?_function (seen : List Name) (f : Function) (ss : List Stmt) :
    hoistingViolation? seen (.function f :: ss) =
      if f.name ∈ seen then some (.duplicateFunction f.name)
      else (nested? f.body).or (hoistingViolation? (f.name :: seen) ss) := rfl

theorem hoistingViolation?_of_ne {s : Stmt} (hs : ∀ f, s ≠ .function f) (seen : List Name)
    (ss : List Stmt) : hoistingViolation? seen (s :: ss) =
      (nested? [s]).or (hoistingViolation? seen ss) := by
  cases s with
  | function f => exact absurd rfl (hs f)
  | _ => rfl

namespace Program.Shims

variable {p : Program} {shim : Name → Function} (h : p.Shims shim)

include h

theorem hoistingViolation?_of_expands {seen seen' : List Name} {ss out : List Stmt}
    (he : p.Expands shim seen ss out) (hseen : p.SeenAs shim seen seen') :
    hoistingViolation? seen' out = hoistingViolation? seen ss := by
  induction he generalizing seen' with
  | nil => rfl
  | @split _ _ _ f hf hu hnew _ ih =>
      have hsplit := (name_mem_splitNames hf).mpr hu
      have hname := splitNames_subset_names hsplit
      have hbody : nested? (f.trim.mapCallees (p.callee shim)).body = nested? f.body :=
        nested?_mapCallees _ f.body
      have hshim : nested? (shim f.name).body = none := by
        rw [nested?, (h.isShim hf hu).definitions]
        rfl
      rw [hoistingViolation?_function, Function.mapCallees_name, Function.trim_name,
        if_neg (mt (hseen.mem_iff_of_mem_names h hname).mp hnew), hbody, hoistingViolation?_function,
        if_neg (hseen.shim_not_mem h hsplit hnew), hshim, Option.none_or, ih (hseen.split hsplit),
        hoistingViolation?_function, if_neg hnew]
  | @keep _ _ _ f hf hu hnew _ ih =>
      have hsplit := mt (name_mem_splitNames hf).mp hu
      have hname := name_mem_names (mem_root_of_function? hf)
      have hbody : nested? (f.mapCallees (p.callee shim)).body = nested? f.body :=
        nested?_mapCallees _ f.body
      rw [hoistingViolation?_function, Function.mapCallees_name,
        if_neg (mt (hseen.mem_iff_of_mem_names h hname).mp hnew), hbody,
        ih (hseen.keep hsplit hname), hoistingViolation?_function, if_neg hnew]
  | again hf hmem _ _ =>
      rw [hoistingViolation?_function, Function.mapCallees_name,
        if_pos ((hseen.mem_iff_of_mem_names h (name_mem_names hf)).mpr hmem),
        hoistingViolation?_function, if_pos hmem]
  | @other _ _ _ s hs _ _ ih =>
      rw [hoistingViolation?_of_ne (Stmt.mapCallees_ne_function hs), hoistingViolation?_of_ne hs,
        ih hseen, ← nested?_mapCallees (p.callee shim) [s], Block.mapCallees, Block.mapCallees]

theorem verifyHoisting_expansion : (p.expansion shim).verifyHoisting = p.verifyHoisting :=
  congrArg report (h.hoistingViolation?_of_expands (p.expands_expansion shim) seenAs_nil)

theorem arityViolation?_forwardSite {f : Function} (hf : p.function? f.name = some f)
    (hu : (f.usage p).isPrunable) : (p.expansion shim).arityViolation? f.forwardSite = none := by
  have hsplit := (name_mem_splitNames hf).mpr hu
  have hfound := h.function?_expansion_of_mem_names (splitNames_subset_names hsplit)
  rw [hf, Option.map_some, retained_of_mem hsplit] at hfound
  simp [arityViolation?, Function.forwardSite, hfound]

theorem arityViolation?_mapCallee {site : CallSite} (hsite : site.callee ∈ p.names) :
    (p.expansion shim).arityViolation? (site.mapCallee (p.callee shim)) =
      (p.arityViolation? site).map (Violation.mapCallee (p.callee shim)) := by
  have harity {f g : Function} (hf : p.function? site.callee = some f)
      (hg : (p.expansion shim).function? (p.callee shim site.callee) = some g)
      (hparameters : g.parameters.length = f.parameters.length)
      (hreturns : g.returns.length = f.returns.length) :
      (p.expansion shim).arityViolation? (site.mapCallee (p.callee shim)) =
        (p.arityViolation? site).map (Violation.mapCallee (p.callee shim)) := by
    simp only [arityViolation?, CallSite.mapCallee, hf, hg, hparameters, hreturns]
    split <;> rfl
  by_cases hsplit : site.callee ∈ p.splitNames
  · obtain ⟨f, hf, -, hshim⟩ := h.isShim_of_mem hsplit
    have hfound := h.function?_shim hsplit
    rw [← callee_of_mem hsplit] at hfound
    exact harity hf hfound hshim.parameters_length hshim.returns_length
  · have hfound := h.function?_expansion_of_mem_names hsite
    cases hf : p.function? site.callee with
    | none =>
        rw [hf] at hfound
        simp [arityViolation?, CallSite.mapCallee, callee_of_not_mem hsplit, hf, hfound]
    | some f =>
        have hkept : p.retained f = f := retained_of_not_mem ((name_of_function? hf).symm ▸ hsplit)
        rw [hf, Option.map_some, hkept] at hfound
        have hcallee : p.callee shim site.callee = site.callee := callee_of_not_mem hsplit
        rw [← hcallee] at hfound
        exact harity hf hfound rfl rfl

theorem verifyArity_expansion : (p.expansion shim).verifyArity =
    p.verifyArity.mapError (Violation.mapCallee (p.callee shim)) := by
  -- The calls in the shims are never in violation, and the others stand in their old order.
  have hforward : ∀ site ∈ Block.callSites (p.expansion shim).root,
      ¬ decide (site.callee ∉ p.splitNames) = true →
        (p.expansion shim).arityViolation? site = none := by
    intro site hmem hsite
    have hcallee : site.callee ∈ p.splitNames := by simpa using hsite
    have hfilter : site ∈ p.prunable.map fun eu => eu.1.function.forwardSite := by
      rw [← h.filter_callSites, List.mem_filter]
      exact ⟨hmem, decide_eq_true hcallee⟩
    obtain ⟨⟨e, u⟩, he, rfl⟩ := List.mem_map.mp hfilter
    obtain ⟨he, -, hu⟩ := mem_prunable.mp he
    exact h.arityViolation?_forwardSite (function?_of_mem_index he) hu
  rw [verifyArity, ← findSome?_filter_of_eq_none hforward, h.filter_callSites_not, verifyArity,
    ← report_map, List.findSome?_map, List.map_findSome?, ← List.head?_filterMap,
    ← List.head?_filterMap]
  refine congrArg (fun vs => report (List.head? vs)) (List.filterMap_congr fun site hsite => ?_)
  exact h.arityViolation?_mapCallee (Block.callee_mem_names hsite)

theorem verify_expansion : (p.expansion shim).verify = .ok () ↔ p.verify = .ok () := by
  rw [verify_eq_ok, verify_eq_ok, h.verifyHoisting_expansion, h.verifyArity_expansion]
  refine and_congr_right fun _ => ?_
  cases p.verifyArity <;> simp [Except.mapError]

end Program.Shims

end YulPruner
