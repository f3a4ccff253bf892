import YulPruner.Optimizer.Run
import YulPruner.Proofs.Pruning.Calls
import YulPruner.Proofs.Pruning.Prune
import YulPruner.Proofs.Basic

namespace YulPruner

def PrunedFunction.logEntry (f : PrunedFunction) : LogEntry :=
  .split f.entry.function.name f.split.shim.name f.usage.mask

theorem forIn_log_split (fs : List PrunedFunction) (w : Workspace) :
    (forIn fs PUnit.unit fun f _ => do
      PassM.log f.logEntry
      pure (ForInStep.yield PUnit.unit) : PassM PUnit) w =
    .ok PUnit.unit { w with log := w.log ++ fs.map PrunedFunction.logEntry } := by
  induction fs generalizing w with
  | nil => simp; rfl
  | cons f fs ih =>
      have hlog : (do
          PassM.log f.logEntry
          pure (ForInStep.yield PUnit.unit) : PassM (ForInStep PUnit)) w =
        .ok (.yield PUnit.unit) { w with log := w.log ++ [f.logEntry] } := rfl
      rw [List.forIn_cons, bind_of_ok hlog]
      refine (ih _).trans ?_
      rw [List.map_cons, List.append_assoc, List.singleton_append]

theorem PassM.naming_eq {α : Type} (draw : StateM NameSupply α) (w : Workspace) :
    PassM.naming draw w = .ok (draw w.names).1 { w with names := (draw w.names).2 } := rfl

theorem runPruner_of_isEmpty {w : Workspace} (h : w.program.prunable.isEmpty = true) :
    runPruner w = .ok false { w with log := w.log ++ [.nothingUnused] } := by
  rw [runPruner, get_bind]
  simp only [if_pos h]
  rfl

theorem runPruner_of_not_isEmpty {w : Workspace} (h : ¬ w.program.prunable.isEmpty = true) :
    let pruning := (w.program.prune w.names).1
    runPruner w = .ok true ⟨pruning.program, (w.program.prune w.names).2,
      w.log ++ pruning.functions.map PrunedFunction.logEntry ++
        [.redirected pruning.functions.length pruning.callSites], w.notes⟩ := by
  intro pruning
  have hlog := forIn_log_split pruning.functions { w with names := (w.program.prune w.names).2 }
  rw [runPruner, get_bind]
  simp only [if_neg h]
  rw [bind_of_ok (PassM.naming_eq w.program.prune w)]
  exact bind_of_ok hlog _

theorem runPruner_eq_expansion {w : Workspace} (hw : ∀ x ∈ w.program.names, x ∈ w.names.used) :
    ∃ w' shim, runPruner w = .ok (!w.program.prunable.isEmpty) w' ∧ w.program.Shims shim ∧
      w.program.NumbersShims shim ∧ w'.program = w.program.expansion shim := by
  cases h : w.program.prunable.isEmpty with
  | true =>
      have hnil := List.isEmpty_iff.mp h
      have hself : w.program = w.program.expansion fun c => ⟨c, [], [], []⟩ :=
        (Program.expansion_eq_self hnil).symm
      exact ⟨_, _, runPruner_of_isEmpty h, Program.shims_of_prunable_eq_nil hnil,
        Program.numbersShims_of_prunable_eq_nil hnil, hself⟩
  | false =>
      obtain ⟨shim, hshims, hnumbers, hprogram⟩ := Program.prune_eq_expansion hw
      exact ⟨_, shim, runPruner_of_not_isEmpty (by simp [h]), hshims, hnumbers, hprogram⟩

theorem runPruner_ofProgram (p : Program) :
    ∃ w shim, runPruner (.ofProgram p) = .ok (!p.prunable.isEmpty) w ∧ p.Shims shim ∧
      w.program = p.expansion shim := by
  obtain ⟨w, shim, hrun, hshims, _, hprogram⟩ := runPruner_eq_expansion (w := .ofProgram p)
    fun _ hx => hx
  exact ⟨w, shim, hrun, hshims, hprogram⟩

/-- The whole pass. Every first definition that is to be split gives way to the function with its
mentioned slots and a shim, and apart from that only callees are renamed. So each split function is
called once, in its shim, and there are as many more calls as functions are split. -/
theorem runPruner_description (p : Program) :
    ∃ w shim, runPruner (.ofProgram p) = .ok (!p.prunable.isEmpty) w ∧ p.Shims shim ∧
      w.program = p.expansion shim ∧
      (∀ c ∈ p.splitNames,
        ((Block.callSites w.program.root).map CallSite.callee).count c = 1 ∧
        Stmt.function (shim c) ∈ w.program.root ∧
        (Block.callSites (shim c).body).map CallSite.callee = [c]) ∧
      (Block.callSites w.program.root).length =
        (Block.callSites p.root).length + p.splitNames.length := by
  obtain ⟨w, shim, hrun, hshims, hprogram⟩ := runPruner_ofProgram p
  refine ⟨w, shim, hrun, hshims, hprogram, ?_, ?_⟩
  · intro c hc
    rw [hprogram]
    exact ⟨hshims.count_callSites hc, hshims.shim_mem_root hc, hshims.callees_shim hc⟩
  · rw [hprogram, hshims.length_callSites, Program.splitNames, List.length_map]

end YulPruner
