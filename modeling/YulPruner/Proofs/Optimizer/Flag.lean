import YulPruner.Proofs.Optimizer.Run

namespace YulPruner

namespace Program

variable {p : Program}

theorem functions_mem_features (h : p.prunable ≠ []) : Feature.functions ∈ p.features := by
  obtain ⟨⟨e, u⟩, he⟩ := List.exists_mem_of_ne_nil _ h
  obtain ⟨hindex, -, -⟩ := mem_prunable.mp he
  have hroot := mem_root_of_function? (function?_of_mem_index hindex)
  have hfound : Feature.functions ∈ (Block.items p.root).flatMap Item.features :=
    List.mem_flatMap.mpr ⟨_, Block.definition_mem_items hroot, List.mem_cons_self⟩
  exact List.mem_filter.mpr ⟨List.mem_cons_self, decide_eq_true hfound⟩

theorem Shims.expansion_ne {shim : Name → Function} (hshims : p.Shims shim) (h : p.prunable ≠ []) :
    p.expansion shim ≠ p := by
  -- There are more calls in an expansion.
  intro heq
  have hlength := hshims.length_callSites
  rw [heq] at hlength
  have hpos := List.length_pos_iff.mpr h
  omega

end Program

namespace Optimizer

variable (config : Config)

structure Applies (p : Program) : Prop where
  level : .moderate ≤ config.level
  enabled : prunerName ∉ config.disabled
  unused : p.prunable ≠ []

theorem applies_iff {p : Program} : Applies config p ↔
    .moderate ≤ config.level ∧ prunerName ∉ config.disabled ∧ p.prunable ≠ [] := by
  constructor
  · intro h
    exact ⟨h.level, h.enabled, h.unused⟩
  · rintro ⟨hlevel, hname, hunused⟩
    exact ⟨hlevel, hname, hunused⟩

theorem not_applies_of_level_none {p : Program} (h : config.level = .none) :
    ¬ Applies config p := by
  intro ha
  have hlevel := ha.level
  rw [h] at hlevel
  exact absurd hlevel (by decide)

theorem runPass_pruner_eq_true {w w' : Workspace} {changed : Bool}
    (h : runPass config pruner w = .ok changed w')
    (hw : ∀ x ∈ w.program.names, x ∈ w.names.used) :
    changed = true ↔ Applies config w.program := by
  rw [runPass, get_bind] at h
  by_cases hlevel : config.level < pruner.minLevel
  · rw [if_pos hlevel] at h
    cases h
    exact iff_of_false Bool.false_ne_true fun ha => Nat.not_lt.mpr ha.level hlevel
  rw [if_neg hlevel] at h
  by_cases hname : pruner.name ∈ config.disabled
  · rw [if_pos hname] at h
    cases h
    exact iff_of_false Bool.false_ne_true fun ha => ha.enabled hname
  rw [if_neg hname] at h
  by_cases hfeature : ∃ k ∈ pruner.required, k ∉ w.program.features
  · rw [if_pos hfeature] at h
    cases h
    obtain ⟨k, hk, hmissing⟩ := hfeature
    rw [List.mem_singleton.mp hk] at hmissing
    exact iff_of_false Bool.false_ne_true fun ha =>
      hmissing (Program.functions_mem_features ha.unused)
  obtain ⟨w'', shim, hrun, -⟩ := runPruner_eq_expansion hw
  rw [if_neg hfeature, bind_of_ok (x := pruner.run) hrun] at h
  cases h
  rw [Bool.not_eq_true', List.isEmpty_eq_false_iff]
  exact ⟨fun hunused => ⟨Nat.not_lt.mp hlevel, hname, hunused⟩, Applies.unused⟩

theorem Prunes.eq_true_iff {w w' : Workspace} {changed : Bool} (h : Prunes w changed w') :
    changed = true ↔ w'.program ≠ w.program := by
  rcases h with ⟨rfl, hprogram⟩ | ⟨rfl, hprunable, shim, hshims, -, hprogram⟩
  · exact iff_of_false Bool.false_ne_true fun hne => hne hprogram
  · rw [hprogram]
    exact iff_of_true rfl (hshims.expansion_ne hprunable)

/-- A run that does not fail tells whether the pass applied, and so whether the program is another
one. -/
theorem optimize_eq_ok {p : Program} {changed : Bool}
    (h : ((ofConfig config).optimize p).result = .ok changed) :
    (changed = true ↔ ((ofConfig config).optimize p).workspace.program ≠ p) ∧
      (changed = true ↔ Applies config p) := by
  by_cases hlevel : config.level = .none
  · rw [optimize_of_level_none config p hlevel] at h ⊢
    cases h
    exact ⟨iff_of_false Bool.false_ne_true fun hne => hne rfl,
      iff_of_false Bool.false_ne_true (not_applies_of_level_none config hlevel)⟩
  have hok : config.verify = true → p.verify = .ok () := by
    intro hc
    cases hp : p.verify with
    | ok => rfl
    | error v =>
        rw [(optimize_eq_error config).mpr ⟨hlevel, hc, hp⟩] at h
        cases h
  obtain ⟨changed', w, hrun, hprunes⟩ := runPass_pruner config (w := .ofProgram p) fun _ hx => hx
  have happlies := runPass_pruner_eq_true config hrun fun _ hx => hx
  rw [optimize_of_runPass config hlevel hok hrun hprunes] at h ⊢
  cases h
  exact ⟨hprunes.eq_true_iff, happlies⟩

theorem optimize_verify {p : Program} (hp : p.verify = .ok ()) (b : Bool) :
    (ofConfig { config with verify := b }).optimize p = (ofConfig config).optimize p := by
  by_cases hlevel : config.level = .none
  · rw [optimize_of_level_none config p hlevel,
      optimize_of_level_none { config with verify := b } p hlevel]
  obtain ⟨changed, w, hrun, hprunes⟩ := runPass_pruner config (w := .ofProgram p) fun _ hx => hx
  have hrun' : runPass { config with verify := b } pruner (.ofProgram p) = .ok changed w := hrun
  rw [optimize_of_runPass config hlevel (fun _ => hp) hrun hprunes,
    optimize_of_runPass { config with verify := b } hlevel (fun _ => hp) hrun' hprunes]

/-- A run of the built-in optimizer fails exactly where the first verification does, and then leaves
the program as it is. Otherwise it tells exactly whether the program changed, which is whether the
level is high enough, the pass is enabled and the analysis finds something to split. Verification
makes no difference to programs that pass it. -/
theorem optimize_atomic_and_exact (p : Program) :
    let o := (ofConfig config).optimize p
    (∀ v, o.result = .error v ↔ config.level ≠ .none ∧ config.verify = true ∧ p.verify = .error v) ∧
      (∀ v, o.result = .error v → o.workspace.program = p) ∧
      (∀ changed, o.result = .ok changed →
        (changed = true ↔ o.workspace.program ≠ p) ∧
          (changed = true ↔
            .moderate ≤ config.level ∧ prunerName ∉ config.disabled ∧ p.prunable ≠ [])) ∧
      (p.verify = .ok () → ∀ b, (ofConfig { config with verify := b }).optimize p = o) := by
  refine ⟨fun v => optimize_eq_error config, fun v hv => ?_, fun changed hchanged => ?_,
    fun hp => optimize_verify config hp⟩
  · cases ends_optimize config p with
    | refused _ _ hprogram => exact hprogram
    | unchanged hresult => cases hresult.symm.trans hv
    | changed _ hresult => cases hresult.symm.trans hv
  · obtain ⟨hprogram, happlies⟩ := optimize_eq_ok config hchanged
    exact ⟨hprogram, happlies.trans (applies_iff config)⟩

end Optimizer

end YulPruner
