import YulPruner.Optimizer.Script
import YulPruner.Proofs.Naming.History
import YulPruner.Proofs.Optimizer.Run

namespace YulPruner

namespace PassM

variable {α β : Type}

def leaves (x : PassM α) (w : Workspace) : Workspace :=
  match x w with
  | .ok _ w' | .error _ w' => w'

theorem leaves_of_ok {x : PassM α} {w w' : Workspace} {a : α} (h : x w = .ok a w') :
    x.leaves w = w' := by
  rw [leaves, h]

theorem leaves_of_error {x : PassM α} {w w' : Workspace} {v : Violation} (h : x w = .error v w') :
    x.leaves w = w' := by
  rw [leaves, h]

/-- Steps in which names are drawn and reserved, and nothing else is done to the supply. To the rest
of the workspace they may do anything, and they may fail. -/
inductive Orderly : {α : Type} → PassM α → Prop
  | apart {α : Type} {x : PassM α} (h : ∀ w, (x.leaves w).names = w.names) : Orderly x
  | draw (hint : Name) : Orderly (naming (NameSupply.fresh hint))
  | reserve (x : Name) : Orderly (modify fun w => { w with names := w.names.reserve x })
  | bind {α β : Type} {x : PassM α} {k : α → PassM β} (hx : Orderly x) (hk : ∀ a, Orderly (k a)) :
      Orderly (x >>= k)

/-- The names that were handed out stay different from each other and from those to avoid. -/
theorem Orderly.avoids {x : PassM α} (h : Orderly x) {names : List Name} {w : Workspace}
    (hw : w.names.Avoids names) : (x.leaves w).names.Avoids names := by
  induction h generalizing w with
  | apart h => rwa [h w]
  | draw hint => exact hw.fresh hint
  | reserve x => exact hw.reserve x
  | @bind _ _ x k _ _ ihx ihk =>
      have hfirst := ihx hw
      cases hx : x w with
      | ok a w' =>
          rw [leaves_of_ok hx] at hfirst
          have hrest := ihk a hfirst
          rwa [leaves, ← bind_of_ok hx k] at hrest
      | error v w' =>
          rw [leaves_of_error hx] at hfirst
          rwa [leaves_of_error (bind_of_error hx k)]

theorem orderly_pure (a : α) : Orderly (pure a) := .apart fun _ => rfl

theorem orderly_get : Orderly get := .apart fun _ => rfl

theorem orderly_log (entry : LogEntry) : Orderly (log entry) := .apart fun _ => rfl

theorem orderly_note (n : Note) : Orderly (note n) := .apart fun _ => rfl

theorem orderly_setProgram (p : Program) : Orderly (setProgram p) := .apart fun _ => rfl

theorem orderly_check (verification : Except Violation Unit) : Orderly (check verification) := by
  refine .apart fun w => ?_
  cases verification <;> rfl

theorem orderly_ite {c : Prop} [Decidable c] {x y : PassM α} (hx : Orderly x) (hy : Orderly y) :
    Orderly (if c then x else y) := by
  split
  · exact hx
  · exact hy

theorem orderly_forIn {f : α → β → PassM (ForInStep β)} (h : ∀ a b, Orderly (f a b))
    (as : List α) (b : β) : Orderly (forIn as b f) := by
  induction as generalizing b with
  | nil => exact orderly_pure b
  | cons a as ih =>
      rw [List.forIn_cons]
      refine (h a b).bind fun step => ?_
      cases step with
      | done b => exact orderly_pure b
      | yield b => exact ih b

section Naming

variable {draw : StateM NameSupply α} {next : α → StateM NameSupply β}

theorem orderly_naming_pure (a : α) : Orderly (naming (pure a)) := .apart fun _ => rfl

theorem orderly_naming_bind (h : Orderly (naming draw)) (hnext : ∀ a, Orderly (naming (next a))) :
    Orderly (naming (draw >>= next)) :=
  h.bind hnext

theorem orderly_naming_mapM {draw : α → StateM NameSupply β} (h : ∀ a, Orderly (naming (draw a)))
    (as : List α) : Orderly (naming (as.mapM draw)) := by
  induction as with
  | nil => exact orderly_naming_pure []
  | cons a as ih =>
      rw [List.mapM_cons]
      exact orderly_naming_bind (h a) fun _ =>
        orderly_naming_bind ih fun _ => orderly_naming_pure _

theorem orderly_split (f : Function) (u : FunctionUsage) : Orderly (naming (f.split u)) := by
  rw [Function.split]
  refine orderly_naming_bind (.draw f.name) fun _ => ?_
  refine orderly_naming_bind (orderly_naming_mapM .draw f.parameters) fun _ => ?_
  exact orderly_naming_bind (orderly_naming_mapM .draw f.returns) fun _ => orderly_naming_pure _

theorem orderly_prune (p : Program) : Orderly (naming p.prune) := by
  rw [Program.prune, Program.splitPrunable]
  refine orderly_naming_bind (orderly_naming_mapM ?_ p.prunable) fun _ => orderly_naming_pure _
  rintro ⟨e, u⟩
  exact orderly_naming_bind (orderly_split e.function u) fun _ => orderly_naming_pure _

end Naming

end PassM

namespace Pass

open PassM

/-- What a pass promises to the optimizer. -/
structure Lawful (pass : Pass) : Prop where
  orderly : pass.run.Orderly
  unchanged {w w' : Workspace} : pass.run w = .ok false w' → w'.program = w.program

theorem lawful_pruner : pruner.Lawful := by
  constructor
  · refine orderly_get.bind fun w => orderly_ite ?_ ?_
    · exact (orderly_log _).bind fun _ => orderly_pure false
    · refine (orderly_prune w.program).bind fun pruning => ?_
      refine (orderly_forIn (fun f _ => ?_) pruning.functions _).bind fun _ => ?_
      · exact (orderly_log _).bind fun _ => orderly_pure _
      · exact (orderly_setProgram _).bind fun _ => (orderly_log _).bind fun _ => orderly_pure true
  · intro w w' h
    by_cases hempty : w.program.prunable.isEmpty = true
    · cases (runPruner_of_isEmpty hempty).symm.trans h
      rfl
    · cases (runPruner_of_not_isEmpty hempty).symm.trans h

theorem orderly_action (action : Action) : action.run.Orderly := by
  cases action with
  | newName hint => exact (Orderly.draw hint).bind fun _ => orderly_pure _
  | isUsed | clear | fail => exact .apart fun _ => rfl
  | append source =>
      refine .apart fun w => ?_
      rw [Action.run, leaves, get_bind]
      cases parse source <;> rfl

theorem lawful_script {s : Script} (h : s.changed = true) : s.pass.Lawful := by
  constructor
  · refine (orderly_forIn (fun action _ => ?_) s.actions _).bind fun _ => ?_
    · exact (orderly_action action).bind fun _ => (orderly_note _).bind fun _ => orderly_pure _
    · exact (orderly_note _).bind fun _ => orderly_pure s.changed
  · intro w w' hrun
    obtain ⟨_, w₁, -, hnotes⟩ := bind_eq_ok.mp hrun
    obtain ⟨_, w₂, -, hend⟩ := bind_eq_ok.mp hnotes
    have hchanged : s.changed = false := (EStateM.Result.ok.inj hend).1
    rw [h] at hchanged
    cases hchanged

end Pass

namespace Optimizer

open PassM

variable (config : Config)

theorem orderly_verify : (verify config).Orderly :=
  orderly_ite (orderly_get.bind fun _ => orderly_check _) (orderly_pure _)

theorem orderly_runPass {pass : Pass} (h : pass.Lawful) : (runPass config pass).Orderly := by
  have hskip (entry : LogEntry) : (do log entry; return false : PassM Bool).Orderly :=
    (orderly_log entry).bind fun _ => orderly_pure false
  refine orderly_get.bind fun w => orderly_ite (hskip _) (orderly_ite (hskip _)
    (orderly_ite (hskip _) ?_))
  exact h.orderly.bind fun changed => (orderly_log _).bind fun _ => orderly_pure changed

theorem orderly_runPasses {passes : List Pass} (h : ∀ pass ∈ passes, pass.Lawful) :
    (runPasses config passes).Orderly := by
  induction passes with
  | nil => exact orderly_pure []
  | cons pass passes ih =>
      have hrest := ih fun other hother => h other (List.mem_cons_of_mem _ hother)
      refine (orderly_runPass config (h pass List.mem_cons_self)).bind fun changed => ?_
      exact hrest.bind fun applied => orderly_pure _

theorem orderly_optimizeM {o : Optimizer} (h : ∀ pass ∈ o.passes, pass.Lawful) :
    o.optimizeM.Orderly := by
  rw [optimizeM]
  refine orderly_ite ((orderly_log _).bind fun _ => orderly_pure false) ?_
  refine (orderly_verify o.config).bind fun _ => (orderly_runPasses o.config h).bind fun applied => ?_
  have hend : (do log (.complete o.config.level (!applied.isEmpty) applied)
                  return !applied.isEmpty : PassM Bool).Orderly :=
    (orderly_log _).bind fun _ => orderly_pure _
  exact orderly_ite ((orderly_verify o.config).bind fun _ => hend) hend

theorem workspace_optimize (o : Optimizer) (p : Program) :
    (o.optimize p).workspace = o.optimizeM.leaves (.ofProgram p) := by
  cases h : o.optimizeM (.ofProgram p) with
  | ok changed w => rw [optimize_of_ok h, leaves_of_ok h]
  | error v w => rw [optimize_of_error h, leaves_of_error h]

theorem verify_eq_ok {w w' : Workspace} {u : Unit} (hc : config.verify = true)
    (h : verify config w = .ok u w') : w' = w ∧ w.program.verify = .ok () := by
  cases hw : w.program.verify with
  | ok =>
      cases (verify_of_ok config fun _ => hw).symm.trans h
      exact ⟨rfl, rfl⟩
  | error v => cases (verify_of_error config hc hw).symm.trans h

theorem program_of_runPass {pass : Pass} (h : pass.Lawful) {w w' : Workspace}
    (hrun : runPass config pass w = .ok false w') : w'.program = w.program := by
  rw [runPass, get_bind] at hrun
  split at hrun
  · cases hrun
    rfl
  split at hrun
  · cases hrun
    rfl
  split at hrun
  · cases hrun
    rfl
  · obtain ⟨changed, w₁, hpass, hend⟩ := bind_eq_ok.mp hrun
    cases hend
    have hsame := h.unchanged hpass
    exact hsame

theorem program_of_runPasses {passes : List Pass} (h : ∀ pass ∈ passes, pass.Lawful)
    {w w' : Workspace} (hrun : runPasses config passes w = .ok [] w') : w'.program = w.program := by
  induction passes generalizing w with
  | nil =>
      cases hrun
      rfl
  | cons pass passes ih =>
      obtain ⟨changed, w₁, hfirst, hrest⟩ := bind_eq_ok.mp hrun
      obtain ⟨applied, w₂, hothers, hend⟩ := bind_eq_ok.mp hrest
      obtain ⟨happlied, rfl⟩ := EStateM.Result.ok.inj hend
      cases changed with
      | true => cases happlied
      | false =>
          rw [if_neg Bool.false_ne_true] at happlied
          rw [happlied] at hothers
          rw [ih (fun other hother => h other (List.mem_cons_of_mem _ hother)) hothers]
          exact program_of_runPass config (h pass List.mem_cons_self) hfirst

/-- The program was verified before the first pass and is as it was then, or it is verified at the
end. -/
theorem verified_of_optimizeM {o : Optimizer} (hlevel : o.config.level ≠ .none)
    (hverify : o.config.verify = true) (h : ∀ pass ∈ o.passes, pass.Lawful) {w w' : Workspace}
    {changed : Bool} (hrun : o.optimizeM w = .ok changed w') :
    w'.program.verify = .ok () ∧ (changed = false → w'.program = w.program) := by
  rw [optimizeM, if_neg hlevel] at hrun
  obtain ⟨_, w₁, hfirst, hrest⟩ := bind_eq_ok.mp hrun
  obtain ⟨rfl, hok⟩ := verify_eq_ok o.config hverify hfirst
  obtain ⟨applied, w₂, hpasses, hend⟩ := bind_eq_ok.mp hrest
  cases applied with
  | nil =>
      cases hend
      have hprogram := program_of_runPasses o.config h hpasses
      exact ⟨(congrArg Program.verify hprogram).trans hok, fun _ => hprogram⟩
  | cons name applied =>
      obtain ⟨_, w₃, hlast, hlog⟩ := bind_eq_ok.mp hend
      obtain ⟨rfl, hverified⟩ := verify_eq_ok o.config hverify hlast
      cases hlog
      refine ⟨hverified, fun hsame => ?_⟩
      cases hsame

theorem optimize_of_violation {o : Optimizer} (hlevel : o.config.level ≠ .none)
    (hverify : o.config.verify = true) {p : Program} {v : Violation} (hp : p.verify = .error v) :
    o.optimize p = ⟨.error v, .ofProgram p⟩ := by
  apply optimize_of_error
  rw [optimizeM, if_neg hlevel]
  exact bind_of_error (verify_of_error o.config hverify (w := .ofProgram p) hp) _

theorem foldl_addPass (o : Optimizer) (passes : List Pass) :
    passes.foldl addPass o = ⟨o.config, o.passes ++ passes⟩ := by
  induction passes generalizing o with
  | nil => rw [List.foldl_nil, List.append_nil]
  | cons pass passes ih => rw [List.foldl_cons, ih, addPass, List.append_assoc, List.singleton_append]

/-- The built-in optimizer with further passes. A run that succeeds ends with a program that fulfils
the preconditions, and with the same program if it tells that nothing changed. On a program that
violates one, the run fails before the first pass, whatever the passes are. Up to its end, however it
ends, no name is handed out twice, and none that the program has. -/
theorem optimize_with_passes {config : Config} (hlevel : config.level ≠ .none)
    (hverify : config.verify = true) {passes : List Pass} (hpasses : ∀ pass ∈ passes, pass.Lawful)
    (p : Program) :
    let o := (passes.foldl addPass (ofConfig config)).optimize p
    (∀ changed, o.result = .ok changed →
      o.workspace.program.verify = .ok () ∧ (changed = false → o.workspace.program = p)) ∧
      (∀ v, p.verify = .error v → ∀ others : List Pass,
        (others.foldl addPass (ofConfig config)).optimize p = ⟨.error v, .ofProgram p⟩) ∧
      o.workspace.names.issued.Nodup ∧ p.names.Disjoint o.workspace.names.issued := by
  intro o
  have hall : ∀ pass ∈ (passes.foldl addPass (ofConfig config)).passes, pass.Lawful := by
    intro pass hpass
    rw [foldl_addPass] at hpass
    rcases List.mem_cons.mp hpass with rfl | hpass
    · exact Pass.lawful_pruner
    · exact hpasses pass hpass
  have hconfig (others : List Pass) : (others.foldl addPass (ofConfig config)).config = config := by
    rw [foldl_addPass, ofConfig_config]
  have havoids : o.workspace.names.Avoids p.names := by
    rw [show o.workspace = _ from workspace_optimize _ p]
    exact (orderly_optimizeM hall).avoids (NameSupply.avoids_ofNames p.names)
  refine ⟨fun changed hchanged => ?_, fun v hv others => ?_, havoids.nodup,
    fun x hx hissued => havoids.not_mem hissued hx⟩
  · cases hrun : (passes.foldl addPass (ofConfig config)).optimizeM (.ofProgram p) with
    | ok b w =>
        have ho : o = ⟨.ok b, w⟩ := optimize_of_ok hrun
        rw [ho] at hchanged ⊢
        cases hchanged
        exact verified_of_optimizeM ((hconfig passes).symm ▸ hlevel) ((hconfig passes).symm ▸ hverify)
          hall hrun
    | error v w =>
        have ho : o = ⟨.error v, w⟩ := optimize_of_error hrun
        rw [ho] at hchanged
        cases hchanged
  · exact optimize_of_violation ((hconfig others).symm ▸ hlevel) ((hconfig others).symm ▸ hverify) hv

/-- A pass that draws a name for a hint for which the pruner draws too, and then clears the program. -/
def clearing : Script where
  name := "clearing"
  minLevel := .minimal
  required := []
  actions := [.newName "f", .clear, .newName "f"]
  changed := true

def unmentioned : Program where
  root := [.function ⟨"f", ["x"], [], []⟩, .expression (.call "f" [.var "f_1"])]

theorem optimize_with_passes_clearing :
    ({} : Config).level ≠ .none ∧ ({} : Config).verify = true ∧
      (∀ pass ∈ [clearing.pass], pass.Lawful) ∧
      let o := ([clearing.pass].foldl addPass (ofConfig {})).optimize unmentioned
      o.result = .ok true ∧ o.workspace.program.verify = .ok () ∧
        o.workspace.names.issued = ["f_4", "f_3", "x_1", "f_2"] ∧
        o.workspace.names.issued.Nodup ∧
        unmentioned.names.Disjoint o.workspace.names.issued := by
  have hlevel : ({} : Config).level ≠ .none := by decide
  have hpasses : ∀ pass ∈ [clearing.pass], pass.Lawful := by
    intro pass hpass
    rw [List.mem_singleton.mp hpass]
    exact Pass.lawful_script rfl
  obtain ⟨hchanged, -, hnodup, hdisjoint⟩ := optimize_with_passes hlevel rfl hpasses unmentioned
  exact ⟨hlevel, rfl, hpasses, rfl, (hchanged true rfl).1, rfl, hnodup, hdisjoint⟩

end Optimizer

end YulPruner
