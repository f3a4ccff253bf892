import YulPruner.Proofs.Execution.Program
import YulPruner.Proofs.Optimizer.Run

namespace YulPruner

namespace Optimizer

/-- Where the optimized program is not stopped by a limit, the program does the same under the same
limits. Where the program is not stopped, the optimized program does the same with enough steps and
twice the depth. -/
theorem run_optimize (config : Config) {p : Program} (hp : p.verify = .ok ())
    (hkeeps : ∀ f ∈ p.functions, f.KeepsReturns) (limits : Limits) :
    let q := ((ofConfig config).optimize p).workspace.program
    (¬ StoppedByLimit (q.run limits) → p.run limits = q.run limits) ∧
      (¬ StoppedByLimit (p.run limits) →
        ∃ steps ≥ limits.steps, q.run ⟨steps, 2 * limits.depth⟩ = p.run limits) := by
  intro q
  have hunchanged (hq : q = p) : (¬ StoppedByLimit (q.run limits) → p.run limits = q.run limits) ∧
      (¬ StoppedByLimit (p.run limits) →
        ∃ steps ≥ limits.steps, q.run ⟨steps, 2 * limits.depth⟩ = p.run limits) := by
    rw [hq]
    refine ⟨fun _ => rfl, Program.run_eq_of_raised ?_⟩
    exact (Regime.raised limits).execute_self (Nat.zero_le _) p
  cases ends_optimize config p with
  | refused _ _ hprogram => exact hunchanged hprogram
  | unchanged _ hprogram => exact hunchanged hprogram
  | changed shim _ hshims hprogram =>
      have hq : q = p.expansion shim := hprogram
      rw [hq]
      refine ⟨Program.run_eq_of_same ?_, Program.run_eq_of_raised ?_⟩
      · exact (Regime.same limits).execute_expansion hp (Nat.le_refl _) hshims hkeeps
      · exact (Regime.raised limits).execute_expansion hp (Nat.zero_le _) hshims hkeeps

/-- A function that does not mention its second parameter, and a call of it. -/
def secondUnmentioned : Program where
  root := [.function ⟨"f", ["x", "y"], ["r"], [.assignment ["r"] (.var "x")]⟩,
    .expression (.call "log" [.call "f" [.literal (.number 1), .literal (.number 2)]])]

theorem run_optimize_secondUnmentioned :
    secondUnmentioned.verify = .ok () ∧
    (∀ f ∈ secondUnmentioned.functions, f.KeepsReturns) ∧
    let q := ((ofConfig {}).optimize secondUnmentioned).workspace.program
    (¬ StoppedByLimit (q.run {}) → secondUnmentioned.run {} = q.run {}) ∧
      (¬ StoppedByLimit (secondUnmentioned.run {}) →
        ∃ steps ≥ 100000, q.run ⟨steps, 512⟩ = secondUnmentioned.run {}) := by
  have hp : secondUnmentioned.verify = .ok () := rfl
  have hkeeps : ∀ f ∈ secondUnmentioned.functions, f.KeepsReturns := by
    intro f hf names hnames
    simp only [secondUnmentioned, Program.functions, List.filterMap_cons, List.filterMap_nil,
      List.mem_singleton] at hf
    subst hf
    simp [Block.items, Stmt.items] at hnames
  exact ⟨hp, hkeeps, run_optimize {} hp hkeeps {}⟩

end Optimizer

end YulPruner
