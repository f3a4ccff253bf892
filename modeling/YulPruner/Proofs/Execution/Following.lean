import YulPruner.Proofs.Execution.Plan
import YulPruner.Proofs.Execution.Shim

namespace YulPruner

variable {α β : Type}

def Ending.leave : Ending α → Ending α
  | .ok a m => .ok a m.leave
  | .error h m => .error h m.leave

theorem Ending.machine_leave (e : Ending α) : e.leave.machine = e.machine.leave := by
  cases e <;> rfl

theorem Exec.deeper_eq (x : Exec α) (m : Machine) : Exec.deeper x m = Ending.leave (x m.down) := by
  cases hx : x m.down with
  | ok => exact Exec.deeper_of_ok hx
  | error => exact Exec.deeper_of_error hx

/-- If the limit can be attained, steps are never taken back, and the one beyond the limit is the last.
Calls are nested no deeper than the limit allows, and the depth is restored in the end. -/
structure Disciplined (limits : Limits) (m : Machine) (ms : List Machine) (e : Ending α) : Prop where
  sorted : limits.Attainable →
    (m :: ms ++ [e.machine]).Pairwise (·.steps.toNat ≤ ·.steps.toNat)
  steps : limits.Attainable → e.machine.steps.toNat ≤ limits.steps + 1
  steps_ok {a : α} {m' : Machine} : limits.Attainable → e = .ok a m' →
    m'.steps.toNat ≤ limits.steps
  depths : ∀ w ∈ ms, w.depth ≤ max m.depth limits.depth
  depth : e.machine.depth = m.depth

namespace Disciplined

variable {limits : Limits} {m m' : Machine} {ms ms' : List Machine}

protected theorem nil {e : Ending α} (h : e.machine = m)
    (hm : limits.Attainable → m.steps.toNat ≤ limits.steps) : Disciplined limits m [] e where
  sorted _ := by simp [h]
  steps hlimit := by
    rw [h]
    exact Nat.le_succ_of_le (hm hlimit)
  steps_ok hlimit := by
    rintro rfl
    obtain rfl : _ = m := h
    exact hm hlimit
  depths := nofun
  depth := by rw [h]

theorem last {e : Ending α} (h : Disciplined limits m ms e) (hlimit : limits.Attainable)
    {w : Machine} (hw : w ∈ m :: ms) : w.steps.toNat ≤ e.machine.steps.toNat :=
  (List.pairwise_append.mp (h.sorted hlimit)).2.2 w hw _ (List.mem_singleton_self _)

theorem start_le {e : Ending α} (h : Disciplined limits m ms e) (hlimit : limits.Attainable) :
    m.steps.toNat ≤ e.machine.steps.toNat :=
  h.last hlimit List.mem_cons_self

theorem within {e : Ending α} (h : Disciplined limits m ms e) (hlimit : limits.Attainable) :
    ∀ w ∈ m :: ms ++ [e.machine],
      w.steps.toNat ≤ limits.steps + 1 ∧ w.depth ≤ max m.depth limits.depth := by
  intro w hw
  rcases List.mem_append.mp hw with hw | hw
  · refine ⟨(h.last hlimit hw).trans (h.steps hlimit), ?_⟩
    rcases List.mem_cons.mp hw with rfl | hw
    · exact Nat.le_max_left _ _
    · exact h.depths w hw
  · rw [List.mem_singleton.mp hw, h.depth]
    exact ⟨h.steps hlimit, Nat.le_max_left _ _⟩

theorem append {a : α} {e : Ending β} (h : Disciplined limits m ms (.ok a m'))
    (h' : Disciplined limits m' ms' e) : Disciplined limits m (ms ++ ms') e where
  sorted hlimit := by
    obtain ⟨hbefore, hsorted'⟩ := List.pairwise_cons.mp (h'.sorted hlimit)
    rw [← List.cons_append, List.append_assoc]
    exact List.pairwise_append.mpr ⟨(List.pairwise_append.mp (h.sorted hlimit)).1, hsorted',
      fun w hw w' hw' => (h.last hlimit hw).trans (hbefore w' hw')⟩
  steps := h'.steps
  steps_ok := h'.steps_ok
  depths w hw := by
    have hdepth : m'.depth = m.depth := h.depth
    rcases List.mem_append.mp hw with hw | hw
    · exact h.depths w hw
    · exact hdepth ▸ h'.depths w hw
  depth := h'.depth.trans h.depth

theorem halt {halt : Halt} (h : Disciplined limits m ms (.error halt m' : Ending α)) :
    Disciplined limits m ms (.error halt m' : Ending β) :=
  ⟨h.sorted, h.steps, nofun, h.depths, h.depth⟩

theorem leave {e : Ending α} (h : Disciplined limits m.down ms e) (hlt : m.depth < limits.depth) :
    Disciplined limits m (m.down :: (ms ++ [e.machine.leave])) e.leave where
  sorted hlimit := by
    have hsorted := h.sorted hlimit
    rw [e.machine_leave]
    simp only [List.cons_append, List.append_assoc, List.pairwise_cons, List.pairwise_append,
      List.mem_cons, List.mem_append] at hsorted ⊢
    grind [Machine.down, Machine.leave]
  steps := by
    rw [e.machine_leave]
    exact h.steps
  steps_ok {a m'} hlimit he := by
    cases e with
    | ok a w =>
        have hok : w.steps.toNat ≤ limits.steps := h.steps_ok hlimit rfl
        cases he
        exact hok
    | error => cases he
  depths w hw := by
    have hdepth : e.machine.depth = m.depth + 1 := h.depth
    rcases List.mem_cons.mp hw with rfl | hw
    · exact (Nat.succ_le_of_lt hlt).trans (Nat.le_max_right _ _)
    · rcases List.mem_append.mp hw with hw | hw
      · have hdown : w.depth ≤ max (m.depth + 1) limits.depth := h.depths w hw
        omega
      · rw [List.mem_singleton.mp hw, Machine.leave, hdepth]
        exact Nat.le_max_left _ _
  depth := by
    have hdepth : e.machine.depth = m.depth + 1 := h.depth
    rw [e.machine_leave, Machine.leave, hdepth, Nat.add_sub_cancel]

end Disciplined

def Exec.Quiet (x : Exec α) : Prop :=
  ∀ m, (Ending.machine (x m)).steps = m.steps ∧ (Ending.machine (x m)).depth = m.depth

namespace Exec.Quiet

protected theorem pure (a : α) : Exec.Quiet (pure a) := fun _ => ⟨rfl, rfl⟩

protected theorem fail (e : RunError) : Exec.Quiet (Exec.fail e : Exec α) := fun _ => ⟨rfl, rfl⟩

theorem bind {x : Exec α} {k : α → Exec β} (h : x.Quiet) (hk : ∀ a, (k a).Quiet) :
    (x >>= k).Quiet := by
  intro m
  obtain ⟨hsteps, hdepth⟩ := h m
  cases hx : x m with
  | ok a m' =>
      obtain ⟨hsteps', hdepth'⟩ := hk a m'
      rw [hx] at hsteps hdepth
      rw [bind_of_ok hx]
      exact ⟨hsteps'.trans hsteps, hdepth'.trans hdepth⟩
  | error halt m' =>
      rw [hx] at hsteps hdepth
      rw [bind_of_error hx]
      exact ⟨hsteps, hdepth⟩

theorem single (vs : List Word) : (single vs).Quiet := by
  match vs with
  | [] => exact .fail _
  | [v] => exact .pure v
  | _ :: _ :: _ => exact .fail _

theorem read (frame : Frame) (x : Name) : (frame.read x).Quiet := by
  rw [Frame.read]
  cases frame.get? x with
  | some v => exact .pure v
  | none => exact .fail _

theorem mapM_read (frame : Frame) (names : List Name) : (names.mapM frame.read).Quiet := by
  induction names with
  | nil => exact .pure []
  | cons x names ih =>
      rw [List.mapM_cons]
      exact (read frame x).bind fun v => ih.bind fun vs => .pure (v :: vs)

theorem builtin {b : Builtin} {arguments : List Word} {act : Exec (List Word)}
    (h : b.act? arguments = some act) : act.Quiet := by
  unfold Builtin.act? at h
  split at h <;> cases h <;> exact fun _ => ⟨rfl, rfl⟩

theorem callBuiltin (c : Name) (arguments : List Word) : (callBuiltin c arguments).Quiet := by
  rw [YulPruner.callBuiltin]
  cases h : (Builtin.table.lookup c).bind (·.act? arguments) with
  | none => exact .fail _
  | some act =>
      obtain ⟨b, -, hb⟩ := Option.bind_eq_some_iff.mp h
      exact builtin hb

end Exec.Quiet

/-- From `m`, the plan ends as the computation does, and it is disciplined on the way. Where the limit
cannot be attained, the computation may fail for it all the same, for want of turns. -/
def Follows (limits : Limits) (functions : List Function) (x : Exec α) (p : Plan α) (m : Machine) :
    Prop :=
  (limits.Attainable → m.steps.toNat ≤ limits.steps) →
    (∃ ms, p.Goes limits functions m ms (x m) ∧ Disciplined limits m ms (x m)) ∨
      ¬ limits.Attainable ∧ ∃ w, x m = .error (.failed .stepLimit) w

namespace Follows

variable {limits : Limits} {functions : List Function} {m : Machine}

protected theorem pure (a : α) : Follows limits functions (pure a) (pure a) m :=
  fun hm => Or.inl ⟨[], .ok, .nil rfl hm⟩

theorem bind {x : Exec α} {p : Plan α} (h : Follows limits functions x p m) {l : α → Exec β}
    {k : α → Plan β} (hk : ∀ a m', x m = .ok a m' →
      (limits.Attainable → m.steps.toNat ≤ m'.steps.toNat) → m'.depth = m.depth →
      Follows limits functions (l a) (k a) m') : Follows limits functions (x >>= l) (p >>= k) m := by
  intro hm
  rcases h hm with ⟨ms, hgoes, hms⟩ | ⟨hlimit, w, hx⟩
  case inr => exact Or.inr ⟨hlimit, w, bind_of_error hx l⟩
  cases hx : x m with
  | ok a m' =>
      rw [hx] at hgoes hms
      rw [bind_of_ok hx]
      have hrest := hk a m' hx hms.start_le hms.depth fun hlimit => hms.steps_ok hlimit rfl
      rcases hrest with ⟨ms', hgoes', hms'⟩ | hlost
      · exact Or.inl ⟨ms ++ ms', hgoes.bind_ok hgoes', hms.append hms'⟩
      · exact Or.inr hlost
  | error halt m' =>
      rw [hx] at hgoes hms
      rw [bind_of_error hx]
      exact Or.inl ⟨ms, hgoes.bind_error k, hms.halt⟩

theorem run_bind {x : Run α} {r : Routine α} {frame : Frame}
    (h : Follows limits functions (x.run frame) (r.run frame) m) {l : α → Run β} {k : α → Routine β}
    (hk : ∀ a frame' m', x.run frame m = .ok (a, frame') m' →
      (limits.Attainable → m.steps.toNat ≤ m'.steps.toNat) → m'.depth = m.depth →
      Follows limits functions ((l a).run frame') ((k a).run frame') m') :
    Follows limits functions ((x >>= l).run frame) ((r >>= k).run frame) m :=
  h.bind fun u => hk u.1 u.2

theorem ask {job : Job} {x : Exec job.Answer}
    (h : Follows limits functions x (job.plan limits functions) m) :
    Follows limits functions x (Plan.ask job) m := by
  intro hm
  rcases h hm with ⟨ms, hgoes, hms⟩ | hlost
  · exact Or.inl ⟨ms, .ask hgoes, hms⟩
  · exact Or.inr hlost

theorem lift {x : Exec α} (h : x.Quiet) : Follows limits functions x (liftM x) m := by
  obtain ⟨hsteps, hdepth⟩ := h m
  intro hm
  refine Or.inl ⟨[Ending.machine (x m)], .lift rfl, ?_, ?_, ?_, ?_, hdepth⟩
  · simp [hsteps]
  · intro hlimit
    rw [hsteps]
    exact Nat.le_succ_of_le (hm hlimit)
  · intro a m' hlimit hx
    rw [hx] at hsteps
    have hsame : m'.steps = m.steps := hsteps
    rw [hsame]
    exact hm hlimit
  · simp [hdepth]

theorem tick : Follows limits functions (Exec.tick limits) (liftM (Exec.tick limits)) m := by
  intro hm
  refine Or.inl ⟨[Ending.machine (Exec.tick limits m)], .lift rfl, ?_⟩
  have hdepths : ∀ w ∈ [{ m with steps := m.steps + 1 }], w.depth ≤ max m.depth limits.depth := by
    simp
  have hnext (hlimit : limits.Attainable) : (m.steps + 1).toNat = m.steps.toNat + 1 :=
    hlimit.toNat_add_one (hm hlimit)
  have hsorted {w : Machine} (hle : m.steps.toNat ≤ w.steps.toNat) :
      (m :: [w] ++ [w]).Pairwise (·.steps.toNat ≤ ·.steps.toNat) := by
    simp [hle]
  by_cases hallows : limits.Allows m.steps
  · rw [Exec.tick_of_allows hallows]
    refine ⟨fun hlimit => hsorted ((Nat.le_succ _).trans_eq (hnext hlimit).symm),
      fun _ => Nat.le_succ_of_le hallows, ?_, hdepths, rfl⟩
    rintro a m' - heq
    cases heq
    exact hallows
  · rw [Exec.tick_of_not_allows hallows]
    refine ⟨fun hlimit => hsorted ((Nat.le_succ _).trans_eq (hnext hlimit).symm), fun hlimit => ?_,
      nofun, hdepths, rfl⟩
    exact (hnext hlimit).trans_le (Nat.succ_le_succ (hm hlimit))

theorem run_tick_bind {l : Run β} {k : Routine β} {frame : Frame}
    (hk : ∀ m', (limits.Attainable → m'.steps.toNat = m.steps.toNat + 1) → m'.depth = m.depth →
      Follows limits functions (l.run frame) (k.run frame) m') :
    Follows limits functions (((Exec.tick limits : Run Unit) >>= fun _ => l).run frame)
      (((Exec.tick limits : Routine Unit) >>= fun _ => k).run frame) m := by
  rw [Run.run_lift_bind]
  intro hm
  refine (tick.bind fun _ m' htick _ hdepth => ?_) hm
  by_cases hallows : limits.Allows m.steps
  · cases htick.symm.trans (Exec.tick_of_allows hallows)
    exact hk _ (fun hlimit => hlimit.toNat_add_one (hm hlimit)) hdepth
  · cases htick.symm.trans (Exec.tick_of_not_allows hallows)

theorem fail_bind (e : RunError) {l : Unit → Exec α} {k : Unit → Plan α} :
    Follows limits functions ((Exec.fail e : Exec Unit) >>= l)
      ((liftM (Exec.fail e : Exec Unit) : Plan Unit) >>= k) m :=
  (Follows.lift (.fail e)).bind fun _ _ hfail => nomatch hfail

theorem deeper {job : Job} {x : Exec job.Answer} (hlt : m.depth < limits.depth)
    (h : Follows limits functions x (Plan.ask job) m.down) :
    Follows limits functions (Exec.deeper x) (Plan.deeper job) m := by
  intro hm
  rw [Exec.deeper_eq]
  rcases h hm with ⟨ms, hgoes, hms⟩ | ⟨hlimit, w, hx⟩
  · refine Or.inl ⟨m.down :: (ms ++ [(Ending.machine (x m.down)).leave]), ?_, hms.leave hlt⟩
    refine .act rfl (.sub hgoes.of_ask (.act rfl ?_))
    cases x m.down with
    | ok => exact .ok
    | error => exact .error
  · refine Or.inr ⟨hlimit, w.leave, ?_⟩
    rw [hx]
    rfl

end Follows

end YulPruner
