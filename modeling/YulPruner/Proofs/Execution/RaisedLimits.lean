import YulPruner.Proofs.Execution.Program

namespace YulPruner

open Filter (Eventually atTop eventually_const)

variable {limits limits' : Limits}

theorem Lockstep.raised (hsteps : limits.steps ≤ limits'.steps)
    (hdepth : limits.depth ≤ limits'.depth) : Lockstep .left (fun _ => limits) (fun _ => limits')
      limits.depth limits'.depth Eq Eq where
  depth _ := rfl
  depth' _ := rfl
  steps {s s'} hs := by
    subst hs
    by_cases h : limits.Allows s
    · exact Or.inr (Or.inr ⟨rfl, Eventually.of_forall fun _ => ⟨h, h.trans hsteps⟩⟩)
    · exact Or.inl ⟨rfl, Eventually.of_forall fun _ => h⟩
  turns := ⟨limits.steps + 1, Eventually.of_forall fun _ => ⟨rfl, Nat.succ_le_succ hsteps⟩⟩
  reach_call := congrArg _
  room {d d'} hd := by
    subst hd
    rcases Nat.lt_or_ge d limits.depth with h | h
    · exact Or.inr (Or.inr ⟨h, h.trans_le hdepth⟩)
    · exact Or.inl ⟨rfl, h⟩

namespace Program

/-- A run that no limit stops comes to the same under higher limits. -/
theorem run_eq_of_raised_limits (p : Program) (hsteps : limits.steps ≤ limits'.steps)
    (hdepth : limits.depth ≤ limits'.depth) (h : ¬ StoppedByLimit (p.run limits)) :
    p.run limits' = p.run limits := by
  have hcouples := (Lockstep.raised hsteps hdepth).execute_self rfl p
  rcases hcouples.run_eq rfl with ⟨-, hstop⟩ | ⟨hlead, -⟩ | heq
  · exact absurd (eventually_const.mp hstop) h
  · cases hlead
  · exact (eventually_const.mp heq).symm

/-- A loop with calls that nest the deeper the later the turn is. -/
def countdown : Program where
  root := [.function ⟨"f", ["n"], ["r"],
      [.conditional (.var "n")
        [.assignment ["r"] (.call "f" [.call "sub" [.var "n", .literal (.number 1)]])]]⟩,
    .loop [.declaration ["i"] (some (.literal (.number 0)))]
      (.call "lt" [.var "i", .literal (.number 3)])
      [.assignment ["i"] (.call "add" [.var "i", .literal (.number 1)])]
      [.expression (.call "log" [.call "f" [.var "i"]])]]

theorem run_eq_of_raised_limits_countdown : ¬ StoppedByLimit (countdown.run ⟨21, 3⟩) ∧
    countdown.run {} = countdown.run ⟨21, 3⟩ := by
  have hrun : (countdown.run ⟨21, 3⟩).isOk = true := by decide +kernel
  have hlimits : ¬ StoppedByLimit (countdown.run ⟨21, 3⟩) := by
    rintro (h | h) <;> simp [h, Except.isOk, Except.toBool] at hrun
  exact ⟨hlimits, countdown.run_eq_of_raised_limits (by decide) (by decide) hlimits⟩

end Program

end YulPruner
