import YulPruner.Proofs.Optimizer.Pruner
import YulPruner.Proofs.Pruning.Order

namespace YulPruner

namespace Program

def freshLogEntry (p : Program) (f : Function) : LogEntry :=
  .split f.name (p.freshName f.name) (f.usage p).mask

def freshLog (p : Program) : List LogEntry :=
  if p.prunable.isEmpty then [.nothingUnused]
  else (p.prunable.map (·.1.function)).map p.freshLogEntry ++
    [.redirected p.prunable.length ((Block.callSites p.root).countP (·.callee ∈ p.splitNames))]

theorem map_logEntry_freshSplit (p : Program) :
    (p.prunable.map p.freshSplit).map PrunedFunction.logEntry =
      (p.prunable.map (·.1.function)).map p.freshLogEntry := by
  rw [List.map_map, List.map_map]
  refine List.map_congr_left fun eu heu => ?_
  obtain ⟨-, husage, -⟩ := mem_prunable.mp heu
  exact congrArg (fun u : FunctionUsage => LogEntry.split _ _ u.mask) husage

theorem freshLog_perm {p q : Program} (hperm : q.root.Perm p.root) (h : p.DistinctHeadings) :
    q.freshLog.Perm p.freshLog := by
  have hfunctions := prunable_map_function_perm hperm h
  have hentry : q.freshLogEntry = p.freshLogEntry := by
    funext f
    rw [freshLogEntry, freshLogEntry, freshName_perm hperm, usage_perm hperm h]
  have hlength := hfunctions.length_eq
  rw [List.length_map, List.length_map] at hlength
  have hcount := prune_callSites_perm hperm h
  rw [(h.perm hperm).prune_ofProgram.2.2, h.prune_ofProgram.2.2] at hcount
  rw [freshLog, freshLog, prunable_isEmpty_perm hperm h, hentry, hlength, hcount]
  split
  · exact List.Perm.refl _
  · exact (hfunctions.map _).append_right _

end Program

theorem runPruner_of_distinctHeadings {p : Program} (h : p.DistinctHeadings) :
    ∃ w, runPruner (.ofProgram p) = .ok (!p.prunable.isEmpty) w ∧
      w.program.root = p.root.flatMap p.expandStmt ∧ w.log = p.freshLog := by
  cases hempty : p.prunable.isEmpty with
  | true =>
      have hroot := h.root_flatMap_expandStmt (List.isEmpty_iff.mp hempty)
      refine ⟨_, runPruner_of_isEmpty hempty, hroot.symm, ?_⟩
      rw [Program.freshLog, if_pos hempty]
      rfl
  | false =>
      have hne : ¬ p.prunable.isEmpty = true := by simp [hempty]
      obtain ⟨hfunctions, hroot, hcount⟩ := h.prune_ofProgram
      refine ⟨_, runPruner_of_not_isEmpty hne, hroot, ?_⟩
      rw [Program.freshLog, if_neg hne, ← Program.map_logEntry_freshSplit, ← hfunctions, ← hcount,
        ← List.length_map p.freshSplit, ← hfunctions]
      rfl

/-- The order of the statements makes no difference to what the pass does to each of them, if the
names in the headings are all different. The names that it draws have the least numbers that make
names which the program does not have. -/
theorem runPruner_perm {p q : Program} (h : p.DistinctHeadings) (hperm : q.root.Perm p.root) :
    ∃ w w', runPruner (.ofProgram p) = .ok (!p.prunable.isEmpty) w ∧
      runPruner (.ofProgram q) = .ok (!p.prunable.isEmpty) w' ∧
      w.program.root = p.root.flatMap p.expandStmt ∧
      w'.program.root = q.root.flatMap p.expandStmt ∧
      (q.prune (.ofProgram q)).1.callSites = (p.prune (.ofProgram p)).1.callSites ∧
      w'.log.Perm w.log ∧
      ∀ hint, ∃ n, IsLeast {n | 1 ≤ n ∧ numbered hint n ∉ p.names} n ∧
        p.freshName hint = numbered hint n := by
  obtain ⟨w, hrun, hroot, hlog⟩ := runPruner_of_distinctHeadings h
  obtain ⟨w', hrun', hroot', hlog'⟩ := runPruner_of_distinctHeadings (h.perm hperm)
  rw [Program.prunable_isEmpty_perm hperm h] at hrun'
  rw [Program.expandStmt_perm hperm h] at hroot'
  refine ⟨w, w', hrun, hrun', hroot, hroot', Program.prune_callSites_perm hperm h, ?_, ?_⟩
  · rw [hlog, hlog']
    exact Program.freshLog_perm hperm h
  · exact fun hint => NameSupply.isLeast_firstFresh p.names hint

/-- Two functions with unused parameters. Their names with the number one are in use. -/
def numberedTwice : Program where
  root := [.function ⟨"f", ["x"], [], [.expression (.call "f_1" [])]⟩,
    .function ⟨"g", ["y"], ["y_1"], [.assignment ["y_1"] (.call "f" [.literal (.number 7)])]⟩]

theorem runPruner_perm_numberedTwice :
    ∃ w w', runPruner (.ofProgram numberedTwice) = .ok true w ∧
      runPruner (.ofProgram ⟨numberedTwice.root.reverse⟩) = .ok true w' ∧
      w.program.root = numberedTwice.root.flatMap numberedTwice.expandStmt ∧
      w'.program.root = numberedTwice.root.reverse.flatMap numberedTwice.expandStmt ∧
      w'.log.Perm w.log ∧
      ∃ n, IsLeast {n | 1 ≤ n ∧ numbered "y" n ∉ numberedTwice.names} n ∧
        numberedTwice.freshName "y" = numbered "y" n := by
  have h : numberedTwice.DistinctHeadings := by
    unfold Program.DistinctHeadings
    decide
  obtain ⟨w, w', hrun, hrun', hroot, hroot', -, hlog, hleast⟩ :=
    runPruner_perm h (List.reverse_perm numberedTwice.root)
  exact ⟨w, w', hrun, hrun', hroot, hroot', hlog, hleast "y"⟩

end YulPruner
