import YulPruner.Proofs.Analysis.Precondition
import YulPruner.Proofs.Analysis.Usage
import YulPruner.Proofs.Optimizer.Pruner

namespace YulPruner

namespace Optimizer

variable (config : Config)

theorem verify_of_ok {w : Workspace} (h : config.verify = true → w.program.verify = .ok ()) :
    verify config w = .ok () w := by
  rw [verify]
  by_cases hc : config.verify = true
  · rw [if_pos hc]
    rw [get_bind, h hc]
    rfl
  · rw [if_neg hc]
    rfl

theorem verify_of_error {w : Workspace} (hc : config.verify = true) {v : Violation}
    (h : w.program.verify = .error v) : verify config w = .error v w := by
  rw [verify, if_pos hc, get_bind, h]
  rfl

/-- What a pass makes of a workspace: nothing but log entries, or the expansion of a program in
which something is to be split. -/
def Prunes (w : Workspace) (changed : Bool) (w' : Workspace) : Prop :=
  (changed = false ∧ w'.program = w.program) ∨
    (changed = true ∧ w.program.prunable ≠ [] ∧ ∃ shim, w.program.Shims shim ∧
      w.program.NumbersShims shim ∧ w'.program = w.program.expansion shim)

theorem runPass_pruner {w : Workspace} (hw : ∀ x ∈ w.program.names, x ∈ w.names.used) :
    ∃ changed w', runPass config pruner w = .ok changed w' ∧ Prunes w changed w' := by
  rw [runPass, get_bind]
  by_cases hlevel : config.level < pruner.minLevel
  · rw [if_pos hlevel]
    exact ⟨false, _, rfl, Or.inl ⟨rfl, rfl⟩⟩
  rw [if_neg hlevel]
  by_cases hname : pruner.name ∈ config.disabled
  · rw [if_pos hname]
    exact ⟨false, _, rfl, Or.inl ⟨rfl, rfl⟩⟩
  rw [if_neg hname]
  by_cases hfeature : ∃ k ∈ pruner.required, k ∉ w.program.features
  · rw [if_pos hfeature]
    exact ⟨false, _, rfl, Or.inl ⟨rfl, rfl⟩⟩
  obtain ⟨w', shim, hrun, hshims, hnumbers, hprogram⟩ := runPruner_eq_expansion hw
  rw [if_neg hfeature, bind_of_ok (x := pruner.run) hrun]
  refine ⟨_, _, rfl, ?_⟩
  cases h : w.program.prunable with
  | nil =>
      refine Or.inl ⟨rfl, ?_⟩
      exact hprogram.trans (w.program.expansion_eq_self h)
  | cons e es => exact Or.inr ⟨rfl, by simp [h], shim, hshims, hnumbers, hprogram⟩

theorem runPasses_singleton {pass : Pass} {w w' : Workspace} {changed : Bool}
    (h : runPass config pass w = .ok changed w') :
    runPasses config [pass] w = .ok (if changed then [pass.name] else []) w' := by
  rw [runPasses, bind_of_ok h]
  rfl

/-- What is known of a run of the built-in optimizer. -/
inductive Ends (config : Config) (p : Program) (o : Outcome) : Prop
  | refused (v : Violation) : o.result = .error v → o.workspace.program = p →
      config.level ≠ .none → config.verify = true → p.verify = .error v → Ends config p o
  | unchanged : o.result = .ok false → o.workspace.program = p →
      (config.level ≠ .none → config.verify = true → p.verify = .ok ()) → Ends config p o
  | changed (shim : Name → Function) : o.result = .ok true → p.Shims shim →
      o.workspace.program = p.expansion shim → p.prunable ≠ [] →
      (config.verify = true → p.verify = .ok ()) → p.NumbersShims shim → Ends config p o

theorem optimize_of_ok {o : Optimizer} {p : Program} {changed : Bool} {w : Workspace}
    (h : o.optimizeM (.ofProgram p) = .ok changed w) : o.optimize p = ⟨.ok changed, w⟩ := by
  rw [optimize, EStateM.run, h]

theorem optimize_of_error {o : Optimizer} {p : Program} {v : Violation} {w : Workspace}
    (h : o.optimizeM (.ofProgram p) = .error v w) : o.optimize p = ⟨.error v, w⟩ := by
  rw [optimize, EStateM.run, h]

@[simp] theorem ofConfig_config : (ofConfig config).config = config := rfl

@[simp] theorem ofConfig_passes : (ofConfig config).passes = [pruner] := rfl

theorem optimize_of_level_none (p : Program) (hlevel : config.level = .none) :
    (ofConfig config).optimize p =
      ⟨.ok false, { Workspace.ofProgram p with log := [.disabled] }⟩ := by
  apply optimize_of_ok
  rw [optimizeM, ofConfig_config, if_pos hlevel]
  rfl

theorem Prunes.verify_eq_ok {w w' : Workspace} {changed : Bool} (h : Prunes w changed w')
    (hp : w.program.verify = .ok ()) : w'.program.verify = .ok () := by
  rcases h with ⟨-, hprogram⟩ | ⟨-, -, shim, hshims, -, hprogram⟩
  · rwa [hprogram]
  · rw [hprogram]
    exact hshims.verify_expansion.mpr hp

theorem optimize_of_runPass {p : Program} {w : Workspace} {changed : Bool}
    (hlevel : config.level ≠ .none) (hok : config.verify = true → p.verify = .ok ())
    (hpass : runPass config pruner (.ofProgram p) = .ok changed w)
    (hprunes : Prunes (.ofProgram p) changed w) :
    (ofConfig config).optimize p = ⟨.ok changed, { w with
      log := w.log ++ [.complete config.level changed (if changed then [prunerName] else [])] }⟩ := by
  have hfirst : verify config (.ofProgram p) = .ok () (.ofProgram p) := verify_of_ok config hok
  have hpasses : runPasses config [pruner] (.ofProgram p) =
      .ok (if changed then [prunerName] else []) w := runPasses_singleton config hpass
  have hsecond : verify config w = .ok () w :=
    verify_of_ok config fun hc => hprunes.verify_eq_ok (hok hc)
  apply optimize_of_ok
  rw [optimizeM, ofConfig_config, ofConfig_passes, if_neg hlevel, bind_of_ok hfirst,
    bind_of_ok hpasses]
  cases changed with
  | false => rfl
  | true => exact bind_of_ok hsecond _

theorem ends_of_verify {p : Program} (hlevel : config.level ≠ .none)
    (hok : config.verify = true → p.verify = .ok ()) :
    Ends config p ((ofConfig config).optimize p) := by
  obtain ⟨changed, w, hrun, hprunes⟩ := runPass_pruner config (w := .ofProgram p) fun _ hx => hx
  rw [optimize_of_runPass config hlevel hok hrun hprunes]
  rcases hprunes with ⟨rfl, hprogram⟩ | ⟨rfl, hprunable, shim, hshims, hnumbers, hprogram⟩
  · exact .unchanged rfl hprogram fun _ => hok
  · exact .changed shim rfl hshims hprogram hprunable hok hnumbers

theorem ends_optimize (p : Program) : Ends config p ((ofConfig config).optimize p) := by
  by_cases hlevel : config.level = .none
  · rw [optimize_of_level_none config p hlevel]
    exact .unchanged rfl rfl fun h => absurd hlevel h
  by_cases hc : config.verify = true
  · cases hp : p.verify with
    | ok => exact ends_of_verify config hlevel fun _ => hp
    | error v =>
        have hoptimize : (ofConfig config).optimizeM (.ofProgram p) = .error v (.ofProgram p) := by
          rw [optimizeM, ofConfig_config, if_neg hlevel]
          exact bind_of_error (verify_of_error config hc hp) _
        rw [optimize_of_error hoptimize]
        exact .refused v rfl rfl hlevel hc hp
  · exact ends_of_verify config hlevel fun h => absurd h hc

theorem optimize_eq_error {p : Program} {v : Violation} :
    ((ofConfig config).optimize p).result = .error v ↔
      config.level ≠ .none ∧ config.verify = true ∧ p.verify = .error v := by
  cases ends_optimize config p with
  | refused v' hresult _ hlevel hc hp => simp [hresult, hlevel, hc, hp]
  | unchanged hresult _ hok =>
      rw [hresult]
      refine iff_of_false (by simp) ?_
      rintro ⟨hlevel, hc, hp⟩
      rw [hok hlevel hc] at hp
      cases hp
  | changed _ hresult _ _ _ hok =>
      rw [hresult]
      refine iff_of_false (by simp) ?_
      rintro ⟨_, hc, hp⟩
      rw [hok hc] at hp
      cases hp

theorem optimize_again {p : Program} {changed : Bool}
    (h : ((ofConfig config).optimize p).result = .ok changed) :
    ((ofConfig config).optimize ((ofConfig config).optimize p).workspace.program).result = .ok false ∧
      ((ofConfig config).optimize ((ofConfig config).optimize p).workspace.program).workspace.program =
        ((ofConfig config).optimize p).workspace.program := by
  cases ends_optimize config p with
  | refused v hresult => rw [hresult] at h; cases h
  | unchanged hresult hprogram =>
      rw [hprogram]
      exact ⟨hresult, hprogram⟩
  | changed shim _ hshims hprogram _ hok =>
      rw [hprogram]
      cases ends_optimize config (p.expansion shim) with
      | refused v _ _ _ hc hv =>
          rw [hshims.verify_expansion.mpr (hok hc)] at hv
          cases hv
      | unchanged hresult hsame => exact ⟨hresult, hsame⟩
      | changed _ _ _ _ hprunable => exact absurd hshims.prunable_expansion hprunable

end Optimizer

/-- The pass neither breaks nor hides a precondition, so nothing but the first verification of the
built-in optimizer can fail. -/
theorem runPruner_preconditions (p : Program) :
    ∃ w shim, runPruner (.ofProgram p) = .ok (!p.prunable.isEmpty) w ∧ p.Shims shim ∧
      w.program = p.expansion shim ∧
      w.program.verifyHoisting = p.verifyHoisting ∧
      w.program.verifyArity = p.verifyArity.mapError (Violation.mapCallee (p.callee shim)) ∧
      (w.program.verify = .ok () ↔ p.verify = .ok ()) ∧
      ∀ config v, ((Optimizer.ofConfig config).optimize p).result = .error v ↔
        config.level ≠ .none ∧ config.verify = true ∧ p.verify = .error v := by
  obtain ⟨w, shim, hrun, hshims, hprogram⟩ := runPruner_ofProgram p
  refine ⟨w, shim, hrun, hshims, hprogram, ?_, ?_, ?_, ?_⟩
  · rw [hprogram, hshims.verifyHoisting_expansion]
  · rw [hprogram, hshims.verifyArity_expansion]
  · rw [hprogram, hshims.verify_expansion]
  · exact fun config v => Optimizer.optimize_eq_error config

/-- What the analysis finds after the pass, and that there is nothing left to do. -/
theorem runPruner_reanalysis (p : Program) :
    ∃ w shim, runPruner (.ofProgram p) = .ok (!p.prunable.isEmpty) w ∧ p.Shims shim ∧
      w.program = p.expansion shim ∧
      w.program.namedUsages = (p.usages.flatMap fun eu =>
        if eu.2.isPrunable then
          [(eu.1.function.name, eu.2.trim),
            ((shim eu.1.function.name).name, { eu.2 with forwarding := true })]
        else [(eu.1.function.name, eu.2)]) ∧
      w.program.prunable = [] ∧
      (∀ names log notes, runPruner ⟨w.program, names, log, notes⟩ =
        .ok false ⟨w.program, names, log ++ [.nothingUnused], notes⟩) ∧
      ∀ config changed, ((Optimizer.ofConfig config).optimize p).result = .ok changed →
        let q := ((Optimizer.ofConfig config).optimize p).workspace.program
        ((Optimizer.ofConfig config).optimize q).result = .ok false ∧
          ((Optimizer.ofConfig config).optimize q).workspace.program = q := by
  obtain ⟨w, shim, hrun, hshims, hprogram⟩ := runPruner_ofProgram p
  have hprunable : w.program.prunable = [] := by rw [hprogram, hshims.prunable_expansion]
  refine ⟨w, shim, hrun, hshims, hprogram, ?_, hprunable, ?_, ?_⟩
  · rw [hprogram, hshims.namedUsages_expansion]
  · exact fun names log notes => runPruner_of_isEmpty (List.isEmpty_iff.mpr hprunable)
  · exact fun config changed h => Optimizer.optimize_again config h

end YulPruner
