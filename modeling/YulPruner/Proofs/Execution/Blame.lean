import YulPruner.Proofs.Execution.Termination
import YulPruner.Proofs.Execution.Tidy

namespace YulPruner

variable {α β : Type}

/-- In the course of the plan from the machine `m`, the job is begun in the machine `w`. -/
inductive Plan.Reaches (limits : Limits) (functions : List Function) (job : Job) (w : Machine) :
    {α : Type} → Plan α → Machine → Prop
  | here {α : Type} {k : Except Halt job.Answer → Plan α} :
      Reaches limits functions job w (.sub job k) w
  | inside {α : Type} {other : Job} {k : Except Halt other.Answer → Plan α} {m : Machine}
      (hother : Reaches limits functions job w (other.plan limits functions) m) :
      Reaches limits functions job w (.sub other k) m
  | after {α : Type} {other : Job} {k : Except Halt other.Answer → Plan α} {m : Machine}
      {ms : List Machine} {e : Ending other.Answer} (hother : other.Goes limits functions m ms e)
      (hk : Reaches limits functions job w (k e.answer) e.machine) :
      Reaches limits functions job w (.sub other k) m
  | act {α β : Type} {x : Exec β} {k : β → Plan α} {b : β} {m m' : Machine} (hx : x m = .ok b m')
      (hk : Reaches limits functions job w (k b) m') : Reaches limits functions job w (.act x k) m

section Evaluations

variable {limits : Limits} {functions : List Function} {p : Plan α} {m w : Machine}
  {ms : List Machine}

theorem Plan.Goes.of_lift {x : Exec α} {e : Ending α}
    (h : (liftM x : Plan α).Goes limits functions m ms e) : x m = e :=
  (h.unique (.lift rfl)).2.symm

theorem Plan.Goes.ok_of_bind {k : α → Plan β} {b : β}
    (h : (p >>= k).Goes limits functions m ms (.ok b w)) : ∃ a m' ms₁ ms₂,
      p.Goes limits functions m ms₁ (.ok a m') ∧ (k a).Goes limits functions m' ms₂ (.ok b w) := by
  obtain ⟨ms₁, e, hp⟩ := h.first
  cases e with
  | ok a m' =>
      obtain ⟨ms₂, -, hk⟩ := hp.of_bind h
      exact ⟨a, m', ms₁, ms₂, hp, hk⟩
  | error halt m' => cases (h.unique (hp.bind_error k)).2

theorem Frame.length_of_mapM_read {frame : Frame} {names : List Name} {values : List Word}
    (h : names.mapM frame.read m = .ok values w) : values.length = names.length := by
  induction names generalizing values m w with
  | nil =>
      cases h
      rfl
  | cons x names ih =>
      rw [List.mapM_cons] at h
      obtain ⟨v, m₁, -, hrest⟩ := bind_eq_ok.mp h
      obtain ⟨vs, m₂, hvs, hend⟩ := bind_eq_ok.mp hrest
      cases hend
      exact congrArg Nat.succ (ih hvs)

theorem Function.length_of_plan {f : Function} {arguments values : List Word}
    (h : (f.plan arguments).Goes limits functions m ms (.ok values w)) :
    values.length = f.returns.length := by
  obtain ⟨⟨flow, frame⟩, m', -, ms', -, hend⟩ := Plan.Goes.ok_of_bind h
  cases flow with
  | none => exact Frame.length_of_mapM_read hend.of_lift
  | some j =>
      cases j with
      | breakLoop | continueLoop => cases hend.of_lift
      | leave => exact Frame.length_of_mapM_read hend.of_lift

theorem Job.length_of_call {c : Name} {f : Function} {arguments : List Expr} {frame : Frame}
    {values : List Word} (hf : definition? functions c = some f)
    (h : (Job.evaluate (.call c arguments) frame).Goes limits functions m ms (.ok values w)) :
    values.length = f.returns.length := by
  obtain ⟨vs, m₁, -, ms₁, -, hcall⟩ := Plan.Goes.ok_of_bind h
  have hjob := hcall.of_ask
  rw [definition?] at hf
  rw [Job.Goes, Job.plan, hf] at hjob
  by_cases hlength : f.parameters.length = vs.length
  · simp only [if_pos hlength] at hjob
    obtain ⟨m₂, m₃, -, ms₂, -, hroom⟩ := Plan.Goes.ok_of_bind hjob
    by_cases hfull : limits.depth ≤ m₂.depth
    · rw [if_pos hfull] at hroom
      obtain ⟨_, m₄, ms₃, ms₄, hfail, -⟩ := Plan.Goes.ok_of_bind hroom
      cases hfail.of_lift
    · rw [if_neg hfull] at hroom
      exact Function.length_of_plan hroom
  · simp only [if_neg hlength] at hjob
    obtain ⟨_, m₂, ms₂, ms₃, hfail, -⟩ := Plan.Goes.ok_of_bind hjob
    cases hfail.of_lift

end Evaluations

section Blame

variable {p : Program} {limits : Limits}

/-- In the course of the plan, what stands in a place of the program was evaluated up to the machine
`w`, save for the depth, and gave another number of values than the place takes. -/
def Plan.Blames (p : Program) (limits : Limits) (q : Plan α) (m : Machine) (error : RunError)
    (w : Machine) : Prop :=
  ∃ place ∈ p.places, ∃ frame m' ms values depth,
    q.Reaches limits (Block.definitions p.root) (.evaluate place.value frame) m' m ∧
    (Job.evaluate place.value frame).Goes limits (Block.definitions p.root) m' ms
      (.ok values { w with depth := depth }) ∧
    Misfit values.length place.bound error

theorem Plan.Blames.mono {q : Plan α} {q' : Plan β} {m m' w : Machine} {error : RunError}
    (h : q.Blames p limits m error w) (hq : ∀ {job w'},
      q.Reaches limits (Block.definitions p.root) job w' m →
      q'.Reaches limits (Block.definitions p.root) job w' m') (depth : Nat) :
    q'.Blames p limits m' error { w with depth := depth } := by
  obtain ⟨place, hplace, frame, m₀, ms, values, depth', hreaches, hgoes, hmisfit⟩ := h
  exact ⟨place, hplace, frame, m₀, ms, values, depth', hq hreaches, hgoes, hmisfit⟩

/-- A plan that fails for a number of values can blame an evaluation for it. -/
theorem Plan.Tidy.blames (hp : p.HoldsBodies) {q : Plan α} {E : RunError → Prop} (h : q.Tidy p E)
    {m w : Machine} {ms : List Machine} {error : RunError} (herror : error.isMisfit = true)
    (hgoes : q.Goes limits (Block.definitions p.root) m ms (.error (.failed error) w)) :
    E error ∧ w = m ∨ q.Blames p limits m error w := by
  generalize hend : (EStateM.Result.error (.failed error) w : Ending α) = e at hgoes
  induction hgoes generalizing E w with
  | ok => cases hend
  | error =>
      obtain ⟨a, ha⟩ := h
      cases ha
  | act hx _ ih =>
      rcases ih (h.2 _) hend with ⟨hfalse, -⟩ | hblames
      · exact hfalse.elim
      · exact Or.inr (hblames.mono (fun hreaches => .act hx hreaches) w.depth)
  | halt hx =>
      cases hend
      exact Or.inl (h.1 _ _ _ hx herror)
  | @sub _ job k m ms ms' e e' hjob hk ihjob ih =>
      obtain ⟨hwithin, hhalt, hok⟩ := h
      cases e with
      | ok a m₁ =>
          rcases ih (hok a) hend with ⟨hmisfits, rfl⟩ | hblames
          · refine Or.inr ?_
            cases job with
            | evaluate e frame =>
                obtain ⟨bound, hplace, hmisfit⟩ := hmisfits
                exact ⟨⟨e, bound⟩, hplace, frame, m, ms, a, w.depth, .here, hjob, hmisfit⟩
            | _ => exact hmisfits.elim
          · exact Or.inr (hblames.mono (fun hreaches => .after hjob hreaches) w.depth)
      | error halt m₁ =>
          obtain ⟨depth, hpassed⟩ := (hhalt halt).eq_of_goes hk
          cases hend.trans hpassed
          have htidy : (job.plan limits (Block.definitions p.root)).Tidy p fun _ => False :=
            Job.plan_tidy hp limits hwithin
          rcases ihjob htidy rfl with ⟨hfalse, -⟩ | hblames
          · exact hfalse.elim
          · exact Or.inr (hblames.mono (fun hreaches => .inside hreaches) depth)

end Blame

end YulPruner
