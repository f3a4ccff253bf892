import YulPruner.Proofs.Optimizer.Flag
import YulPruner.Proofs.Pruning.Features

namespace YulPruner

theorem Program.prunable_isEmpty {p : Program} (h : .functions ∉ p.features) :
    p.prunable.isEmpty = true := by
  rw [List.isEmpty_iff]
  by_contra hp
  exact h (Program.functions_mem_features hp)

theorem featureBits_eq_or {features others : List Feature} {k : Feature}
    (h : ∀ k', k' ∈ others ↔ k' ∈ features ∨ k' = k) :
    featureBits others = featureBits features ||| 1 <<< k.bit := by
  apply Nat.eq_of_testBit_eq
  intro i
  rw [Bool.eq_iff_iff, testBit_featureBits, Nat.testBit_or, Bool.or_eq_true, testBit_featureBits,
    Nat.one_shiftLeft, Nat.testBit_two_pow, decide_eq_true_eq]
  simp only [h, or_and_right, exists_or, exists_eq_left]

theorem featureBits_prune {p : Program} (hp : p.prunable ≠ []) (names : NameSupply) :
    featureBits (p.prune names).1.program.features =
      featureBits p.features ||| 1 <<< Feature.calls.bit :=
  featureBits_eq_or fun _ => Program.mem_features_prune hp names

theorem runPruner_featureBits (w : Workspace) : ∃ changed w', runPruner w = .ok changed w' ∧
    (changed = false → w'.program = w.program ∧ w'.names = w.names) ∧
    (changed = true → featureBits w'.program.features =
      featureBits w.program.features ||| 1 <<< Feature.calls.bit) := by
  by_cases hp : w.program.prunable.isEmpty = true
  · exact ⟨_, _, runPruner_of_isEmpty hp, fun _ => ⟨rfl, rfl⟩, nofun⟩
  · refine ⟨_, _, runPruner_of_not_isEmpty hp, nofun, fun _ => ?_⟩
    exact featureBits_prune (fun hnil => hp (List.isEmpty_iff.mpr hnil)) w.names

namespace Optimizer

variable (config : Config)

/-- The pass without the requirement, so that only its level and its name keep it from running. -/
def unguarded : Pass := { pruner with required := [] }

theorem runPass_unguarded (w : Workspace) : ∃ changed w' log,
    runPass config pruner w = .ok changed w' ∧
      runPass config unguarded w = .ok changed { w' with log } := by
  rw [runPass, get_bind, runPass, get_bind]
  by_cases hlevel : config.level < pruner.minLevel
  · rw [if_pos hlevel, if_pos (c := config.level < unguarded.minLevel) hlevel]
    exact ⟨false, _, _, rfl, rfl⟩
  rw [if_neg hlevel, if_neg (c := config.level < unguarded.minLevel) hlevel]
  by_cases hname : pruner.name ∈ config.disabled
  · rw [if_pos hname, if_pos (c := unguarded.name ∈ config.disabled) hname]
    exact ⟨false, _, _, rfl, rfl⟩
  rw [if_neg hname, if_neg (c := unguarded.name ∈ config.disabled) hname]
  have hnone : ¬ ∃ k ∈ unguarded.required, k ∉ w.program.features := by
    rintro ⟨k, hk, -⟩
    cases hk
  rw [if_neg hnone]
  -- What the driver skips, the pass would leave alone.
  by_cases hfeature : ∃ k ∈ pruner.required, k ∉ w.program.features
  · have hmissing : .functions ∉ w.program.features := by
      obtain ⟨k, hk, hmissing⟩ := hfeature
      rwa [List.mem_singleton.mp hk] at hmissing
    have hrun := runPruner_of_isEmpty (Program.prunable_isEmpty hmissing)
    rw [if_pos hfeature, bind_of_ok (x := unguarded.run) hrun]
    exact ⟨false, _, _, rfl, rfl⟩
  · obtain ⟨changed, w', hrun, -⟩ := runPruner_featureBits w
    rw [if_neg hfeature, bind_of_ok (x := pruner.run) hrun, bind_of_ok (x := unguarded.run) hrun]
    exact ⟨changed, _, _, rfl, rfl⟩

/-- The features of a program are the kinds of the nodes in it, and the bits of their number are
theirs. If there are no functions among them, the pass finds nothing to do and leaves program and
names as they are, so that the driver may as well skip it. If the pass changes the program, it adds
calls to the features and nothing else. -/
theorem features_exact_and_guarding (p : Program) (names : NameSupply) (log : List LogEntry)
    (notes : List Note) :
    let w : Workspace := ⟨p, names, log, notes⟩
    (∀ k : Feature, k ∈ p.features ↔ ∃ i n, p.OccursAt i n ∧ n.feature? = some k) ∧
      (∀ k : Feature, (featureBits p.features).testBit k.bit = true ↔ k ∈ p.features) ∧
      (∀ i, (featureBits p.features).testBit i = true → ∃ k : Feature, k.bit = i) ∧
      (.functions ∉ p.features →
        runPruner w = .ok false ⟨p, names, log ++ [.nothingUnused], notes⟩) ∧
      (∀ config, ∃ changed w' log', runPass config pruner w = .ok changed w' ∧
        runPass config unguarded w = .ok changed { w' with log := log' }) ∧
      ∃ changed w', runPruner w = .ok changed w' ∧
        (changed = false → w'.program = p ∧ w'.names = names) ∧
        (changed = true → featureBits w'.program.features =
          featureBits p.features ||| 1 <<< Feature.calls.bit) := by
  intro w
  refine ⟨fun k => Program.mem_features_iff, testBit_featureBits_bit p.features, fun i hi => ?_,
    fun hmissing => ?_, fun config => runPass_unguarded config w, runPruner_featureBits w⟩
  · obtain ⟨k, -, hk⟩ := (testBit_featureBits p.features i).mp hi
    exact ⟨k, hk⟩
  · exact runPruner_of_isEmpty (Program.prunable_isEmpty hmissing)

def withoutFunctions : Program where
  root := [.conditional (.call "g" []) [.switch (.var "x") []]]

def withoutCalls : Program where
  root := [.function ⟨"f", ["x"], [], [.loop [] (.var "y") [] []]⟩]

theorem features_exact_and_guarding_withoutFunctions :
    .functions ∉ withoutFunctions.features ∧ featureBits withoutFunctions.features = 0b11010 ∧
      runPruner (.ofProgram withoutFunctions) =
        .ok false ⟨withoutFunctions, .ofProgram withoutFunctions, [.nothingUnused], []⟩ ∧
      featureBits withoutCalls.features = 0b00101 ∧
      ∃ w, runPruner (.ofProgram withoutCalls) = .ok true w ∧
        featureBits w.program.features = 0b00111 := by
  have hmissing : .functions ∉ withoutFunctions.features := by decide
  obtain ⟨-, -, -, hskipped, -⟩ := features_exact_and_guarding withoutFunctions
    (.ofProgram withoutFunctions) [] []
  obtain ⟨-, -, -, -, -, changed, w, hrun, -, hbits⟩ := features_exact_and_guarding withoutCalls
    (.ofProgram withoutCalls) [] []
  have hchanged : changed = true := by
    cases hrun
    rfl
  refine ⟨hmissing, by decide, hskipped hmissing, by decide, w, ?_, hbits hchanged⟩
  rw [← hchanged]
  exact hrun

end Optimizer

end YulPruner
