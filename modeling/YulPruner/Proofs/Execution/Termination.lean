import YulPruner.Proofs.Execution.Following
import YulPruner.Proofs.Execution.Program

namespace YulPruner

variable {α β : Type}

/-- With any variables of the call at hand, the routine goes as the run does, if `room` more calls may
be nested. -/
def RunFollows (limits : Limits) (functions : List Function) (room : Nat) (x : Run α)
    (r : Routine α) : Prop :=
  ∀ frame m, limits.depth ≤ room + m.depth → Follows limits functions (x.run frame) (r.run frame) m

def CallsFollow (limits : Limits) (functions : List Function) (room : Nat) (call : Caller) : Prop :=
  ∀ c arguments m, limits.depth ≤ room + m.depth →
    Follows limits functions (call c arguments) (Plan.ask (.call c arguments)) m

variable {limits : Limits} {functions : List Function} {room : Nat}

namespace RunFollows

protected theorem pure (a : α) : RunFollows limits functions room (pure a) (pure a) :=
  fun _ _ _ => .pure _

theorem bind {x : Run α} {r : Routine α} (h : RunFollows limits functions room x r)
    {l : α → Run β} {k : α → Routine β} (hk : ∀ a, RunFollows limits functions room (l a) (k a)) :
    RunFollows limits functions room (x >>= l) (r >>= k) := by
  intro frame m hroom
  exact (h frame m hroom).run_bind fun a frame' m' _ _ hdepth => hk a frame' m' (hdepth ▸ hroom)

theorem lift {x : Exec α} (h : ∀ m, Follows limits functions x (liftM x) m) :
    RunFollows limits functions room (x : Run α) (x : Routine α) :=
  fun _ m _ => (h m).bind fun _ _ _ _ _ => .pure _

theorem quiet {x : Exec α} (h : x.Quiet) :
    RunFollows limits functions room (x : Run α) (x : Routine α) :=
  .lift fun _ => .lift h

theorem modify (k : Frame → Frame) : RunFollows limits functions room (modify k) (modify k) :=
  fun _ _ _ => .pure _

theorem assign (names : List Name) (values : List Word) :
    RunFollows limits functions room (Run.assign names values) (Routine.assign names values) := by
  rw [Run.assign, Routine.assign]
  by_cases hlength : names.length = values.length
  · rw [if_pos hlength, if_pos hlength]
    exact .modify _
  · rw [if_neg hlength, if_neg hlength]
    exact .quiet (.fail _)

end RunFollows

namespace CallsFollow

variable {call : Caller}

mutual

theorem expr (h : CallsFollow limits functions room call) (frame : Frame) :
    ∀ (e : Expr) (m : Machine), limits.depth ≤ room + m.depth →
    Follows limits functions (e.evaluate call frame) (Plan.ask (.evaluate e frame)) m
  | .var x, m, _ => by
      rw [Expr.evaluate]
      refine .ask ?_
      exact (Follows.lift (.read frame x)).bind fun v _ _ _ _ => .pure [v]
  | .literal l, m, _ => .ask (.pure [l.value])
  | .call c arguments, m, hroom => by
      rw [Expr.evaluate]
      refine .ask ?_
      exact (h.expr_all frame arguments m hroom).bind fun values m' _ _ hdepth =>
        h c values m' (hdepth ▸ hroom)

theorem expr_all (h : CallsFollow limits functions room call) (frame : Frame) :
    ∀ (es : List Expr) (m : Machine), limits.depth ≤ room + m.depth →
    Follows limits functions (Expr.evaluateAll call frame es) (Plan.ask (.evaluateAll es frame)) m
  | [], m, _ => .ask (.pure [])
  | e :: es, m, hroom => by
      rw [Expr.evaluateAll]
      refine .ask ?_
      refine (h.expr frame e m hroom).bind fun values m₁ _ _ hdepth => ?_
      refine (Follows.lift (.single values)).bind fun v m₂ _ _ hdepth' => ?_
      exact (h.expr_all frame es m₂ (hdepth' ▸ hdepth ▸ hroom)).bind
        fun vs _ _ _ _ => .pure (v :: vs)

end

theorem evaluate (h : CallsFollow limits functions room call) (e : Expr) :
    RunFollows limits functions room (Run.evaluate call e) (Routine.evaluate e) := by
  intro frame m hroom
  exact (h.expr frame e m hroom).bind fun _ _ _ _ _ => .pure _

theorem evaluateSingle (h : CallsFollow limits functions room call) (e : Expr) :
    RunFollows limits functions room (Run.evaluateSingle call e) (Routine.evaluateSingle e) :=
  (h.evaluate e).bind fun values => .quiet (.single values)

section Turns

variable {condition : Expr} {post body : Block} {run_post run_body : Run Flow}

theorem turn (h : CallsFollow limits functions room call)
    (hbody : RunFollows limits functions room run_body (Routine.block body))
    (hpost : RunFollows limits functions room run_post (Routine.block post)) {bound : Nat}
    {frame : Frame} {m : Machine} (hroom : limits.depth ≤ room + m.depth)
    (hrest : ∀ frame' m', limits.depth ≤ room + m'.depth →
      (limits.Attainable → m.steps.toNat < m'.steps.toNat) → Follows limits functions
        ((Run.turns limits (Run.evaluateSingle call condition) run_body run_post bound).run frame')
        (Plan.ask (.turns condition post body frame')) m') :
    Follows limits functions
      ((Run.turns limits (Run.evaluateSingle call condition) run_body run_post (bound + 1)).run frame)
      (Plan.ask (.turns condition post body frame)) m := by
  have hnext (frame' : Frame) {m' : Machine} (hroom' : limits.depth ≤ room + m'.depth)
      (hsteps : limits.Attainable → m.steps.toNat ≤ m'.steps.toNat) : Follows limits functions
        ((run_post >>= fun j => if j = some Jump.leave then pure (some Jump.leave) else
          (Exec.tick limits : Run Unit) >>= fun _ => Run.turns limits
            (Run.evaluateSingle call condition) run_body run_post bound).run frame')
        ((Routine.block post >>= fun j => if j = some Jump.leave then pure (some Jump.leave) else
          (Exec.tick limits : Routine Unit) >>= fun _ =>
            Routine.turns condition post body).run frame') m' := by
    refine (hpost frame' m' hroom').run_bind fun j frame₁ m₁ _ hsteps₁ hdepth₁ => ?_
    by_cases hj : j = some Jump.leave
    · rw [if_pos hj, if_pos hj]
      exact .pure _
    · rw [if_neg hj, if_neg hj]
      refine .run_tick_bind fun m₂ hstep hdepth₂ => ?_
      refine hrest frame₁ m₂ (hdepth₂ ▸ hdepth₁ ▸ hroom') fun hlimit => ?_
      rw [hstep hlimit]
      exact Nat.lt_succ_of_le ((hsteps hlimit).trans (hsteps₁ hlimit))
  refine .ask ?_
  rw [Run.turns]
  refine (h.evaluateSingle condition frame m hroom).run_bind fun v frame₁ m₁ _ hsteps₁ hdepth₁ => ?_
  by_cases hv : v = 0
  · rw [if_pos hv, if_pos hv]
    exact .pure _
  rw [if_neg hv, if_neg hv]
  have hroom₁ : limits.depth ≤ room + m₁.depth := hdepth₁ ▸ hroom
  refine (hbody frame₁ m₁ hroom₁).run_bind fun flow frame₂ m₂ _ hsteps₂ hdepth₂ => ?_
  have hrest := hnext frame₂ (hdepth₂ ▸ hroom₁) fun hlimit =>
    (hsteps₁ hlimit).trans (hsteps₂ hlimit)
  cases flow with
  | none => exact hrest
  | some j =>
      cases j with
      | breakLoop => exact .pure _
      | continueLoop => exact hrest
      | leave => exact .pure _

/-- With more turns than steps are left, the loop comes to its end, or a limit is hit. -/
theorem turns (h : CallsFollow limits functions room call)
    (hbody : RunFollows limits functions room run_body (Routine.block body))
    (hpost : RunFollows limits functions room run_post (Routine.block post)) {bound : Nat}
    {m : Machine} (hsteps : limits.Attainable → limits.steps < bound + m.steps.toNat)
    (frame : Frame) (hroom : limits.depth ≤ room + m.depth) : Follows limits functions
      ((Run.turns limits (Run.evaluateSingle call condition) run_body run_post bound).run frame)
      (Plan.ask (.turns condition post body frame)) m := by
  induction bound generalizing frame m with
  | zero =>
      intro hm
      refine Or.inr ⟨fun hlimit => ?_, m, rfl⟩
      have hspent := hsteps hlimit
      have hleft := hm hlimit
      omega
  | succ bound ih =>
      refine h.turn hbody hpost hroom fun frame' m' hroom' hlt => ih (fun hlimit => ?_) frame' hroom'
      -- The turn has cost a step that was left.
      have hspent := hsteps hlimit
      have hgrown := hlt hlimit
      omega

end Turns

mutual

theorem stmt (h : CallsFollow limits functions room call) : ∀ s : Stmt,
    RunFollows limits functions room (s.run limits call) s.routine
  | .expression e => by
      rw [Stmt.run, Stmt.routine]
      refine (h.evaluate e).bind fun values => ?_
      by_cases hvalues : values.isEmpty = true
      · simp only [if_pos hvalues]
        exact .pure none
      · simp only [if_neg hvalues]
        exact (RunFollows.quiet (.fail _)).bind fun _ => .pure none
  | .assignment targets value => by
      rw [Stmt.run, Stmt.routine]
      exact (h.evaluate value).bind fun values => (RunFollows.assign targets values).bind
        fun _ => .pure none
  | .declaration names (some value) => by
      rw [Stmt.run, Stmt.routine]
      exact (h.evaluate value).bind fun values => (RunFollows.assign names values).bind
        fun _ => .pure none
  | .declaration names none => (RunFollows.modify _).bind fun _ => .pure none
  | .function _ => .pure none
  | .conditional condition body => by
      rw [Stmt.run, Stmt.routine]
      refine (h.evaluateSingle condition).bind fun v => ?_
      by_cases hv : v = 0
      · rw [if_pos hv, if_pos hv]
        exact .pure none
      · rw [if_neg hv, if_neg hv]
        exact h.block body
  | .switch scrutinee cases => by
      rw [Stmt.run, Stmt.routine]
      refine (h.evaluateSingle scrutinee).bind fun v => ?_
      cases Case.chosen? v cases with
      | none => exact .pure none
      | some i => exact h.case cases i
  | .loop pre condition post body => by
      rw [Stmt.run, Stmt.routine]
      refine (h.block pre).bind fun flow => ?_
      cases flow with
      | some j => exact .pure (some j)
      | none =>
          intro frame m hroom
          exact h.turns (h.block body) (h.block post) (fun _ => by omega) frame hroom
  | .jump j => .pure (some j)
  | .block body => h.block body

theorem block (h : CallsFollow limits functions room call) : ∀ b : Block,
    RunFollows limits functions room (Block.run limits call b) (Routine.block b)
  | [] => fun _ _ _ => .ask (.pure _)
  | s :: ss => by
      intro frame m hroom
      rw [Block.run]
      refine .ask (.run_tick_bind fun m₁ _ hdepth₁ => ?_)
      have hroom₁ : limits.depth ≤ room + m₁.depth := hdepth₁ ▸ hroom
      have hs : Follows limits functions ((s.run limits call).run frame)
          ((Routine.statement s).run frame) m₁ := .ask (h.stmt s frame m₁ hroom₁)
      refine hs.run_bind fun flow frame' m₂ _ _ hdepth₂ => ?_
      cases flow with
      | some j => exact .pure _
      | none => exact h.block ss frame' m₂ (hdepth₂ ▸ hroom₁)

theorem case (h : CallsFollow limits functions room call) : ∀ (cases : List Case) (i : Nat),
    RunFollows limits functions room (Case.run limits call cases i)
      (match cases[i]? with
        | some c => Routine.block c.body
        | none => pure none)
  | [], _ => .pure none
  | ⟨_, body⟩ :: _, 0 => h.block body
  | ⟨_, _⟩ :: cases, i + 1 => h.case cases i

end

end CallsFollow

section Calls

variable {call : Caller} {m : Machine}

theorem CallsFollow.apply (h : CallsFollow limits functions room call) (f : Function)
    (arguments : List Word) (hlt : m.depth < limits.depth)
    (hroom : limits.depth ≤ room + (m.depth + 1)) :
    Follows limits functions (f.apply limits call arguments) (f.plan arguments) m := by
  have hbody : Follows limits functions ((Block.run limits call f.body).run (f.frame arguments))
      (Plan.ask (.block f.body (f.frame arguments))) m.down := h.block f.body _ m.down hroom
  rw [Function.apply, Function.plan]
  refine (hbody.deeper hlt).bind ?_
  rintro ⟨flow, frame⟩ m' - - -
  cases flow with
  | none => exact .lift (.mapM_read frame f.returns)
  | some j =>
      cases j with
      | breakLoop | continueLoop => exact .lift (.fail _)
      | leave => exact .lift (.mapM_read frame f.returns)

theorem dispatch_follows {apply : Function → List Word → Exec (List Word)} (c : Name)
    (arguments : List Word) (happly : ∀ f, m.depth < limits.depth →
      Follows limits functions (apply f arguments) (f.plan arguments) m) :
    Follows limits functions (dispatch limits functions apply c arguments)
      (Plan.ask (.call c arguments)) m := by
  refine .ask ?_
  rw [dispatch, Job.plan]
  cases functions.findRev? (·.name == c) with
  | none => exact .lift (.callBuiltin c arguments)
  | some f =>
      by_cases hlength : f.parameters.length = arguments.length
      · simp only [if_pos hlength]
        have hget : Exec.Quiet (get : Exec Machine) := fun _ => ⟨rfl, rfl⟩
        refine (Follows.lift hget).bind fun m' w hw _ _ => ?_
        cases hw
        by_cases hfull : limits.depth ≤ m.depth
        · rw [if_pos hfull, if_pos hfull]
          exact .fail_bind _
        · rw [if_neg hfull, if_neg hfull]
          exact happly f (Nat.not_le.mp hfull)
      · simp only [if_neg hlength]
        exact .fail_bind _

theorem invoke_follows (room : Nat) :
    CallsFollow limits functions room (invoke limits functions room) := by
  induction room with
  | zero =>
      intro c arguments m hroom
      refine dispatch_follows c arguments fun f hlt => ?_
      rw [Nat.zero_add] at hroom
      exact absurd hlt (Nat.not_lt.mpr hroom)
  | succ room ih =>
      intro c arguments m hroom
      exact dispatch_follows c arguments fun f hlt => ih.apply f arguments hlt (by omega)

end Calls

namespace Job

/-- What the interpreter does for a job, with bounds that are never reached. -/
def run (limits : Limits) (functions : List Function) : (job : Job) → Exec job.Answer
  | .evaluate e frame => e.evaluate (invoke limits functions limits.depth) frame
  | .evaluateAll es frame => Expr.evaluateAll (invoke limits functions limits.depth) frame es
  | .call c arguments => invoke limits functions limits.depth c arguments
  | .statement s frame => (s.run limits (invoke limits functions limits.depth)).run frame
  | .block b frame => (Block.run limits (invoke limits functions limits.depth) b).run frame
  | .turns condition post body frame =>
    let call := invoke limits functions limits.depth
    (Run.turns limits (Run.evaluateSingle call condition) (Block.run limits call body)
      (Block.run limits call post) (limits.steps + 1)).run frame

theorem run_follows (limits : Limits) (functions : List Function) (job : Job) (m : Machine) :
    Follows limits functions (job.run limits functions) (Plan.ask job) m := by
  have hcalls : CallsFollow limits functions limits.depth (invoke limits functions limits.depth) :=
    invoke_follows limits.depth
  have hroom : limits.depth ≤ limits.depth + m.depth := Nat.le_add_right _ _
  cases job with
  | evaluate e frame => exact hcalls.expr frame e m hroom
  | evaluateAll es frame => exact hcalls.expr_all frame es m hroom
  | call c arguments => exact hcalls c arguments m hroom
  | statement s frame => exact .ask (hcalls.stmt s frame m hroom)
  | block b frame => exact hcalls.block b frame m hroom
  | turns condition post body frame =>
      exact hcalls.turns (hcalls.block body) (hcalls.block post) (fun _ => by omega) frame hroom

end Job

namespace Program

/-- Whatever the program and the limits are, as long as the counter can go beyond the limit of steps,
everything that a run consists of comes to one end, which is the one that the interpreter gives. On the
way steps are never taken back, and then the depth is what it was. In the run of the program neither
counter goes beyond its limit, save for one step too many. -/
theorem run_terminates (p : Program) (limits : Limits) (hlimit : limits.steps < 1 <<< 64 - 1) :
    (∀ (job : Job) m, m.steps.toNat ≤ limits.steps → ∃ ms, ∃ e : Ending job.Answer,
      job.run limits (Block.definitions p.root) m = e ∧
      job.Goes limits (Block.definitions p.root) m ms e ∧
      (∀ ms' e', job.Goes limits (Block.definitions p.root) m ms' e' → ms' = ms ∧ e' = e) ∧
      (m :: ms ++ [e.machine]).Pairwise (·.steps.toNat ≤ ·.steps.toNat) ∧
      e.machine.depth = m.depth) ∧
    ∃ ms e, (Job.block p.root []).Goes limits (Block.definitions p.root) .start ms e ∧
      p.run limits = outcomeOf e ∧
      (.start :: ms ++ [e.machine]).Pairwise (·.steps.toNat ≤ ·.steps.toNat) ∧
      ∀ m ∈ .start :: ms ++ [e.machine],
        m.steps.toNat ≤ limits.steps + 1 ∧ m.depth ≤ limits.depth := by
  have hgoes (job : Job) {m : Machine} (hm : m.steps.toNat ≤ limits.steps) : ∃ ms,
      job.Goes limits (Block.definitions p.root) m ms (job.run limits (Block.definitions p.root) m) ∧
      Disciplined limits m ms (job.run limits (Block.definitions p.root) m) := by
    rcases job.run_follows limits (Block.definitions p.root) m fun _ => hm with
      ⟨ms, hgoes, hms⟩ | ⟨hlost, -⟩
    · exact ⟨ms, hgoes.of_ask, hms⟩
    · exact absurd hlimit hlost
  constructor
  · intro job m hm
    obtain ⟨ms, hgoes, hms⟩ := hgoes job hm
    exact ⟨ms, _, rfl, hgoes, fun ms' e' h => Plan.Goes.unique h hgoes, hms.sorted hlimit, hms.depth⟩
  · obtain ⟨ms, hgoes, hms⟩ := hgoes (.block p.root []) (m := .start) (Nat.zero_le _)
    refine ⟨ms, _, hgoes, rfl, hms.sorted hlimit, fun m hm => ?_⟩
    obtain ⟨hsteps, hdepth⟩ := hms.within hlimit m hm
    exact ⟨hsteps, hdepth.trans_eq (Nat.zero_max _)⟩

/-- A loop that nothing but the limit of steps ends. -/
def endless : Program where
  root := [.loop [] (.literal (.number 1)) [] []]

theorem run_terminates_endless : endless.run ⟨5, 256⟩ = .error .stepLimit ∧
    ∃ ms e, (Job.block endless.root []).Goes ⟨5, 256⟩ (Block.definitions endless.root) .start ms e ∧
      endless.run ⟨5, 256⟩ = outcomeOf e ∧
      ∀ m ∈ .start :: ms ++ [e.machine], m.steps.toNat ≤ 6 ∧ m.depth ≤ 256 := by
  obtain ⟨-, ms, e, hgoes, hrun, -, hcounters⟩ :=
    endless.run_terminates ⟨5, 256⟩ (by decide)
  exact ⟨rfl, ms, e, hgoes, hrun, hcounters⟩

section Endless

variable {limits : Limits} {functions : List Function} {frame : Frame} {m : Machine}
  {ms : List Machine} {e : Ending (Flow × Frame)}

theorem block_nil_goes :
    ((Routine.block []).run frame).Goes limits functions m ([] ++ []) (.ok (none, frame) m) :=
  .sub .ok .ok

theorem tick_goes (hlimit : ¬ limits.Attainable) (functions : List Function) (frame : Frame)
    (m : Machine) : ∃ m',
    ((Exec.tick limits : Routine Unit).run frame).Goes limits functions m [m'] (.ok ((), frame) m') :=
  ⟨_, .act (Exec.tick_of_allows (Limits.allows_of_not_attainable hlimit m.steps)) .ok⟩

theorem endless_turn (hlimit : ¬ limits.Attainable)
    (h : (Job.turns (.literal (.number 1)) [] [] frame).Goes limits functions m ms e) :
    ∃ m' ms', ms'.length < ms.length ∧
      (Job.turns (.literal (.number 1)) [] [] frame).Goes limits functions m' ms' e := by
  obtain ⟨ms₁, hcondition⟩ : ∃ ms₁, ((Routine.evaluateSingle (.literal (.number 1))).run frame).Goes
      limits functions m ms₁ (.ok (1, frame) m) := ⟨_, .sub .ok (.act rfl .ok)⟩
  obtain ⟨m', htick⟩ := tick_goes hlimit functions frame m
  rw [Job.Goes, Job.plan, Routine.turn] at h
  obtain ⟨ms₂, rfl, hbody⟩ := hcondition.of_run_bind h
  rw [if_neg (by decide)] at hbody
  obtain ⟨ms₃, rfl, hpost⟩ := block_nil_goes.of_run_bind hbody
  obtain ⟨ms₄, rfl, hnext⟩ := block_nil_goes.of_run_bind hpost
  rw [if_neg nofun] at hnext
  obtain ⟨ms₅, rfl, hturns⟩ := htick.of_run_bind hnext
  refine ⟨m', ms₅, ?_, hturns.of_ask⟩
  simp only [List.length_append, List.length_cons]
  omega

theorem endless_turns (hlimit : ¬ limits.Attainable) :
    ¬ (Job.turns (.literal (.number 1)) [] [] frame).Goes limits functions m ms e := by
  intro h
  induction hlength : ms.length using Nat.strong_induction_on generalizing m ms with
  | _ n ih =>
      obtain ⟨m', ms', hlt, hnext⟩ := endless_turn hlimit h
      exact ih _ (hlength ▸ hlt) hnext rfl

end Endless

/-- Under a limit beyond which the counter cannot go, the loop does not end. From the last step that can
be counted, the counter goes back to zero. -/
theorem endless_never_ends :
    (¬ ∃ ms e, (Job.block endless.root []).Goes ⟨1 <<< 64 - 1, 256⟩ (Block.definitions endless.root)
      .start ms e) ∧
    Exec.tick ⟨1 <<< 64 - 1, 256⟩ { Machine.start with steps := BitVec.allOnes 64 } = .ok () .start := by
  have hlimit : ¬ Limits.Attainable ⟨1 <<< 64 - 1, 256⟩ := Nat.lt_irrefl _
  constructor
  · rintro ⟨ms, e, h⟩
    obtain ⟨m', htick⟩ := tick_goes hlimit (Block.definitions endless.root) [] .start
    rw [Job.Goes, Job.plan, endless, Block.routine] at h
    obtain ⟨ms₁, rfl, hrest⟩ := htick.of_run_bind h
    obtain ⟨ms₂, e₂, hstatement⟩ := Plan.Goes.first hrest
    have hloop := hstatement.of_ask
    rw [Job.Goes, Job.plan, Stmt.routine] at hloop
    obtain ⟨ms₃, rfl, hturns⟩ := block_nil_goes.of_run_bind hloop
    exact endless_turns hlimit hturns.of_ask
  · exact Exec.tick_of_allows (Limits.allows_of_not_attainable hlimit _)

end Program

end YulPruner
