import YulPruner.Proofs.Execution.Tables

namespace YulPruner

open Filter (Eventually atTop eventually_const eventually_ge_atTop)

/-- A run that was stopped by a limit. -/
def StoppedByLimit (r : Except RunError Execution) : Prop :=
  r = .error .stepLimit ∨ r = .error .callDepth

def outcomeOf : EStateM.Result Halt Machine (Flow × Frame) → Except RunError Execution
  | .ok (none, _) m => .ok (m.execution false)
  | .ok (some j, _) _ => .error (.jumpAtTopLevel j)
  | .error .reverted m => .ok (m.execution true)
  | .error (.failed e) _ => .error e

namespace Program

def execute (p : Program) (limits : Limits) : Run Flow :=
  Block.run limits (invoke limits (Block.definitions p.root) limits.depth) p.root

theorem run_eq (p : Program) (limits : Limits) :
    p.run limits = outcomeOf ((p.execute limits).run [] .start) := rfl

end Program

theorem Alike.outcomeOf_eq {pace : Count → Count → Prop} {d d' : Nat}
    {r r' : EStateM.Result Halt Machine (Flow × Frame)}
    (h : Alike (Linked pace d d') (fun u v => u.1 = v.1 ∧ u.2 = v.2) r r') :
    outcomeOf r = outcomeOf r' := by
  have hexecution {m m' : Machine} (hm : Linked pace d d' m m') (reverted : Bool) :
      m.execution reverted = m'.execution reverted := by
    rw [Machine.execution, hm.events, hm.storage, Machine.execution]
  cases h with
  | @ok u v m m' hv hm =>
      obtain ⟨flow, frame⟩ := u
      obtain ⟨flow', frame'⟩ := v
      obtain ⟨rfl, rfl⟩ : flow = flow' ∧ frame = frame' := hv
      cases flow with
      | none => exact congrArg Except.ok (hexecution hm false)
      | some j => rfl
  | @error e m m' hm =>
      cases e with
      | reverted => exact congrArg Except.ok (hexecution hm true)
      | failed e => rfl

theorem Exec.HitsLimit.stoppedByLimit {x : Exec (Flow × Frame)} {m : Machine} (h : x.HitsLimit m) :
    StoppedByLimit (outcomeOf (x m)) := by
  obtain ⟨e, w, hx, rfl | rfl⟩ := h
  · exact Or.inl (by rw [hx]; rfl)
  · exact Or.inr (by rw [hx]; rfl)

section Whole

variable {lead : Side} {limits limits' : Nat → Limits} {D D' : Nat} {pace : Count → Count → Prop}
  {reach : Nat → Nat → Prop}

theorem Lockstep.execute_self (h : Lockstep lead limits limits' D D' pace reach)
    (hreach : reach 0 0) (p : Program) : RunCouples lead (Linked pace 0 0) Eq
      (fun n => p.execute (limits n)) fun n => p.execute (limits' n) := by
  refine h.inStep.block_couples p.root ⟨fun item _ => item.respects_eq, fun site _ values _ => ?_⟩
  simp only [h.depth, h.depth']
  exact h.invoke_couples_self _ (Nat.add_zero D) (Nat.add_zero D') hreach site.callee values

variable (h : Regime lead limits limits' D D' pace reach) {d d' : Nat}

include h

theorem Regime.run_tick_right {A : Frame → Frame → Prop} {α : Type} {x y : Nat → Run α}
    (hxy : RunCouples lead (Linked pace d d') A x y) : RunCouples lead (Linked pace d d') A x
      fun n => (Exec.tick (limits' n) : Run Unit) >>= fun _ => y n := by
  intro frame frame' hframe
  simp only [Run.run_lift_bind]
  exact h.tick_right (hxy frame frame' hframe)

omit h in
theorem Block.run_function (limits : Limits) (call : Caller) (f : Function) (ss : Block) :
    Block.run limits call (.function f :: ss) =
      (Exec.tick limits : Run Unit) >>= fun _ => Block.run limits call ss := rfl

theorem Regime.expands_couples {p : Program} {shim : Name → Function} {c c' : Nat → Caller}
    {seen : List Name} {ss out : List Stmt} (he : p.Expands shim seen ss out)
    (hcalls : CallsCouple lead (Linked pace d d') c (fun n k => c' n (p.callee shim k))
      (Block.callSites ss)) :
    RunCouples lead (Linked pace d d') Eq (fun n => Block.run (limits n) (c n) ss)
      fun n => Block.run (limits' n) (c' n) out := by
  have htick : RunCouples lead (Linked pace d d') Eq (fun n => (Exec.tick (limits n) : Run Unit))
      fun n => (Exec.tick (limits' n) : Run Unit) := .lift h.tick_couples
  induction he with
  | nil => exact .pure none
  | split _ _ _ _ ih =>
      -- The definition of the shim costs a step more.
      have hrest := ih hcalls.of_cons
      simp only [Block.run_function]
      exact htick.bind fun _ => h.run_tick_right hrest
  | keep _ _ _ _ ih | again _ _ _ ih =>
      have hrest := ih hcalls.of_cons
      simp only [Block.run_function]
      exact htick.bind fun _ => hrest
  | @other _ ss _ s _ _ _ ih =>
      have hrest := ih hcalls.of_cons
      have hitems : ItemsCouple lead (Linked pace d d') Eq c (fun n k => c' n (p.callee shim k))
          s.items := by
        refine ⟨fun item _ => item.respects_eq, hcalls.mono fun site hsite => ?_⟩
        rw [Block.callSites_cons, Block.callSites, Block.items_singleton]
        exact List.mem_append_left _ hsite
      have hown := hitems.mono fun _ hi => s.ownItems_sublist.subset hi
      simp only [Block.run, Stmt.run_mapCallees]
      refine htick.bind fun _ => (h.inStep.stmt_couples s hown).bind fun flow => ?_
      cases flow with
      | none => exact hrest
      | some j => exact .pure _

variable {p : Program} (hp : p.verify = .ok ()) (hreach : reach 0 0)

include hreach

theorem Regime.calls_couple {right : List Function} {ρ : Name → Name}
    (hlinks : LinksTables (Block.definitions p.root) right ρ (Block.callSites p.root)) :
    CallsCouple lead (Linked pace 0 0)
      (fun n => invoke (limits n) (Block.definitions p.root) (limits n).depth)
      (fun n c => invoke (limits' n) right (limits' n).depth (ρ c)) (Block.callSites p.root) := by
  simp only [h.depth, h.depth']
  exact h.invoke_couples hlinks rfl rfl hreach

include hp

theorem Regime.execute_expansion {shim : Name → Function} (hshims : p.Shims shim)
    (hkeeps : ∀ f ∈ p.functions, f.KeepsReturns) :
    RunCouples lead (Linked pace 0 0) Eq (fun n => p.execute (limits n))
      fun n => (p.expansion shim).execute (limits' n) :=
  h.expands_couples (p.expands_expansion shim)
    (h.calls_couple hreach (hshims.linksTables hp hkeeps))

end Whole

/-- Of coupled runs, the leading one is stopped by a limit, or both come to the same. -/
theorem RunCouples.run_eq {lead : Side} {limits limits' : Nat → Limits}
    {pace : Count → Count → Prop} {p q : Program} (hpace : pace 0 0) (h : RunCouples lead (Linked pace 0 0) Eq
      (fun n => p.execute (limits n)) fun n => q.execute (limits' n)) :
    (lead = .left ∧ ∀ᶠ n in atTop, StoppedByLimit (p.run (limits n))) ∨
      (lead = .right ∧ ∀ᶠ n in atTop, StoppedByLimit (q.run (limits' n))) ∨
      ∀ᶠ n in atTop, p.run (limits n) = q.run (limits' n) := by
  rcases h [] [] rfl .start .start ⟨rfl, rfl, rfl, rfl, hpace⟩ with
    hescape | ⟨r, r', hx, hy, halike⟩
  · cases lead with
    | left => exact Or.inl ⟨rfl, Eventually.mono hescape fun n hn => hn.stoppedByLimit⟩
    | right => exact Or.inr (Or.inl ⟨rfl, Eventually.mono hescape fun n hn => hn.stoppedByLimit⟩)
    | neither => exact hescape.elim
  · refine Or.inr (Or.inr ?_)
    filter_upwards [hx, hy] with n hn hn'
    rw [p.run_eq, q.run_eq, hn, hn', halike.outcomeOf_eq]

namespace Program

variable {p q : Program}

theorem run_eq_of_same {limits : Limits} (h : RunCouples .right (Linked limits.Behind 0 0) Eq
    (fun _ => p.execute limits) fun _ => q.execute limits)
    (hq : ¬ StoppedByLimit (q.run limits)) : p.run limits = q.run limits := by
  rcases h.run_eq (fun _ => ⟨Nat.le_refl _, Nat.zero_le _⟩) with ⟨hlead, -⟩ | ⟨-, hstop⟩ | heq
  · cases hlead
  · exact absurd (eventually_const.mp hstop) hq
  · exact eventually_const.mp heq

theorem run_eq_of_raised {limits : Limits} (h : RunCouples .left (Linked (fun _ _ => True) 0 0) Eq
    (fun _ => p.execute limits) fun n => q.execute ⟨n, 2 * limits.depth⟩)
    (hp : ¬ StoppedByLimit (p.run limits)) :
    ∃ steps ≥ limits.steps, q.run ⟨steps, 2 * limits.depth⟩ = p.run limits := by
  rcases h.run_eq trivial with ⟨-, hstop⟩ | ⟨hlead, -⟩ | heq
  · exact absurd (eventually_const.mp hstop) hp
  · cases hlead
  · obtain ⟨n, hn, hsteps⟩ := (heq.and (eventually_ge_atTop limits.steps)).exists
    exact ⟨n, hsteps, hn.symm⟩

end Program

end YulPruner
