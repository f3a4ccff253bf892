import Mathlib
import YulPruner.Pipeline
import YulPruner.Proofs.Optimizer.Run
import YulPruner.Proofs.Pruning.WellFormed
import YulPruner.Proofs.Syntax.Roundtrip

namespace YulPruner

namespace Optimizer

/-- An optimized program has a text if the program has one. -/
theorem wellFormed_optimize (config : Config) {p : Program} (h : p.WellFormed) :
    ((ofConfig config).optimize p).workspace.program.WellFormed := by
  cases ends_optimize config p with
  | refused _ _ hprogram => rwa [hprogram]
  | unchanged _ hprogram => rwa [hprogram]
  | changed shim _ hshims hprogram _ _ hnumbers =>
      rw [hprogram]
      exact h.expansion hshims hnumbers

end Optimizer

variable {config : Config} {source : String}

theorem optimizeProgram_of_parse {p : Program} (h : parse source = .ok p) :
    optimizeProgram config source =
      match ((Optimizer.ofConfig config).optimize p).result with
      | .ok _ => .ok ((Optimizer.ofConfig config).optimize p).workspace.program
      | .error v => .error (.optimize v) := by
  rw [optimizeProgram, readProgram, h]
  rfl

theorem optimizeProgram_eq_ok {q : Program} (h : optimizeProgram config source = .ok q) :
    ∃ p changed, parse source = .ok p ∧
      ((Optimizer.ofConfig config).optimize p).result = .ok changed ∧
      ((Optimizer.ofConfig config).optimize p).workspace.program = q := by
  cases hp : parse source with
  | error e =>
      rw [optimizeProgram, readProgram, hp] at h
      cases h
  | ok p =>
      rw [optimizeProgram_of_parse hp] at h
      cases hresult : ((Optimizer.ofConfig config).optimize p).result with
      | error v =>
          rw [hresult] at h
          cases h
      | ok changed =>
          rw [hresult] at h
          exact ⟨p, changed, rfl, hresult, Except.ok.inj h⟩

theorem optimizeText_eq_ok {t : String} : optimizeText config source = .ok t ↔
    ∃ q, optimizeProgram config source = .ok q ∧ q.text = t := by
  rw [optimizeText]
  cases optimizeProgram config source with
  | error e => simp [Except.map]
  | ok q => simp [Except.map]

/-- The text of an optimized program is read as the program, and is left as it is. -/
theorem optimizeText_closed_and_stable {t : String} (h : optimizeText config source = .ok t) :
    ∃ q, optimizeProgram config source = .ok q ∧ parse t = .ok q ∧
      optimizeText config t = .ok t := by
  obtain ⟨q, hq, rfl⟩ := optimizeText_eq_ok.mp h
  obtain ⟨p, changed, hp, hresult, rfl⟩ := optimizeProgram_eq_ok hq
  have hparse := (Optimizer.wellFormed_optimize config (wellFormed_of_parse hp)).parse_text
  obtain ⟨hagain, hsame⟩ := Optimizer.optimize_again config hresult
  refine ⟨_, hq, hparse, optimizeText_eq_ok.mpr ⟨_, ?_, rfl⟩⟩
  rw [optimizeProgram_of_parse hparse, hagain, hsame]

def unusedParameterText : String := "\x7bfunction f(x)\x7b\x7d\x7d"

def splitParameterText : String :=
  "\x7b\n    function f() \x7b \x7d\n    function f_1(x_1) \x7b\n        f()\n    \x7d\n\x7d"

set_option maxRecDepth 8000 in
theorem optimizeText_splitParameterText :
    optimizeText {} unusedParameterText = .ok splitParameterText ∧
    optimizeText {} splitParameterText = .ok splitParameterText := by
  have h : optimizeText {} unusedParameterText = .ok splitParameterText := by cbv
  obtain ⟨_, _, _, hstable⟩ := optimizeText_closed_and_stable h
  exact ⟨h, hstable⟩

end YulPruner
