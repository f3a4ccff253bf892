import YulPruner.Proofs.Execution.Invariant
import YulPruner.Proofs.Execution.Plan

namespace YulPruner

variable {α β : Type}

def RunError.isMisfit : RunError → Bool
  | .bindCount _ _ | .valueCount _ | .discardedValues => true
  | _ => false

/-- The job is one of those that a run of the program consists of. -/
def Job.Within (p : Program) : Job → Prop
  | .evaluate e _ => ∃ bound, ∀ place ∈ e.places bound, place ∈ p.places
  | .evaluateAll es _ => ∀ place ∈ Expr.placesAll es, place ∈ p.places
  | .call _ _ => True
  | .statement s _ => ∀ item ∈ s.items, item ∈ Block.items p.root
  | .block b _ => ∀ item ∈ Block.items b, item ∈ Block.items p.root
  | .turns condition post body _ => .value condition 1 ∈ Block.items p.root ∧
    (∀ item ∈ Block.items post, item ∈ Block.items p.root) ∧
    ∀ item ∈ Block.items body, item ∈ Block.items p.root

def Job.Misfits (p : Program) : (job : Job) → job.Answer → RunError → Prop
  | .evaluate e _, values, error =>
    ∃ bound, ⟨e, bound⟩ ∈ p.places ∧ Misfit values.length bound error
  | _, _, _ => False

def Exec.Fits (x : Exec α) : Prop :=
  ∀ m error w, x m = .error (.failed error) w → error.isMisfit = false

namespace Exec.Fits

protected theorem pure (a : α) : Exec.Fits (pure a) := fun _ _ _ h => nomatch h

protected theorem fail {error : RunError} (h : error.isMisfit = false) :
    Exec.Fits (Exec.fail error : Exec α) := by
  intro m error' w hfail
  cases hfail
  exact h

theorem bind {x : Exec α} {k : α → Exec β} (hx : x.Fits) (hk : ∀ a, (k a).Fits) :
    (x >>= k).Fits := by
  intro m error w h
  cases hm : x m with
  | ok a m' => exact hk a m' error w ((bind_of_ok hm k).symm.trans h)
  | error halt m' =>
      cases (bind_of_error hm k).symm.trans h
      exact hx m error w hm

theorem read (frame : Frame) (x : Name) : (frame.read x).Fits := by
  rw [Frame.read]
  cases frame.get? x with
  | some v => exact .pure v
  | none => exact .fail rfl

theorem mapM_read (frame : Frame) (names : List Name) : (names.mapM frame.read).Fits := by
  induction names with
  | nil => exact .pure []
  | cons x names ih =>
      rw [List.mapM_cons]
      exact (read frame x).bind fun v => ih.bind fun vs => .pure (v :: vs)

theorem tick (limits : Limits) : (Exec.tick limits).Fits := by
  intro m error w h
  by_cases hallows : limits.Allows m.steps
  · cases h.symm.trans (Exec.tick_of_allows hallows)
  · cases h.symm.trans (Exec.tick_of_not_allows hallows)
    rfl

theorem callBuiltin (c : Name) (arguments : List Word) : (callBuiltin c arguments).Fits := by
  intro m error w h
  have hends : (YulPruner.callBuiltin c arguments).Ends (fun _ _ => True)
      (fun halt _ => ∀ e, halt = .failed e → e.isMisfit = false) m := by
    refine callBuiltin_ends (fun b act hact => ?_) (by rintro e ⟨⟩; rfl)
    refine (Builtin.act?_ends hact m).mono (fun _ _ _ _ => trivial) fun halt m' hhalt e he => ?_
    cases hhalt.symm.trans he
  exact hends.of_error h error rfl

end Exec.Fits

namespace Plan

/-- The plan halts in the given way, and until then only the depth changes. -/
def PassesOn (halt : Halt) : Plan α → Prop
  | .done answer => answer = .error halt
  | .act x k => (∀ m, ∃ b depth, x m = .ok b { m with depth := depth }) ∧ ∀ b, (k b).PassesOn halt
  | .sub _ _ => False

/-- Where the plan itself fails for a number of values, `E` holds of the error at the beginning, and
later on it is the number of values of the job just done. -/
def Tidy (p : Program) : Plan α → (RunError → Prop) → Prop
  | .done answer, _ => ∃ a, answer = .ok a
  | .act x k, E =>
    (∀ m error w, x m = .error (.failed error) w → error.isMisfit = true → E error ∧ w = m) ∧
      ∀ b, (k b).Tidy p fun _ => False
  | .sub job k, _ =>
    job.Within p ∧ (∀ halt, (k (.error halt)).PassesOn halt) ∧
      ∀ a, (k (.ok a)).Tidy p (job.Misfits p a)

variable {p : Program} {E : RunError → Prop} {q : Plan α}

theorem PassesOn.bind {halt : Halt} (h : q.PassesOn halt) (k : α → Plan β) :
    (q >>= k).PassesOn halt := by
  induction q with
  | done answer =>
      obtain rfl : answer = .error halt := h
      rfl
  | act x l ih => exact ⟨h.1, fun b => ih b (h.2 b)⟩
  | sub => exact h.elim

theorem PassesOn.eq_of_goes {halt : Halt} {limits : Limits} {functions : List Function}
    {m : Machine} {ms : List Machine} {e : Ending α} (h : q.PassesOn halt)
    (hgoes : q.Goes limits functions m ms e) :
    ∃ depth, e = .error halt { m with depth := depth } := by
  induction hgoes with
  | ok => cases h
  | @error _ halt' m =>
      cases h
      exact ⟨m.depth, rfl⟩
  | @act _ _ x _ _ m _ _ _ hx _ ih =>
      obtain ⟨b, depth, hm⟩ := h.1 m
      cases hx.symm.trans hm
      exact ih (h.2 _)
  | @halt _ _ x _ _ m _ hx =>
      obtain ⟨b, depth, hm⟩ := h.1 m
      cases hx.symm.trans hm
  | sub => exact h.elim

namespace Tidy

protected theorem pure (a : α) : (pure a : Plan α).Tidy p E := ⟨a, rfl⟩

theorem mono {E' : RunError → Prop} (h : q.Tidy p E) (hE : ∀ error, E error → E' error) :
    q.Tidy p E' := by
  cases q with
  | done | sub => exact h
  | act x k =>
      refine ⟨fun m error w hx he => ?_, h.2⟩
      obtain ⟨hfound, hsame⟩ := h.1 m error w hx he
      exact ⟨hE error hfound, hsame⟩

theorem bind (h : q.Tidy p E) {k : α → Plan β} (hk : ∀ a, (k a).Tidy p fun _ => False) :
    (q >>= k).Tidy p E := by
  induction q generalizing E with
  | done answer =>
      obtain ⟨a, rfl⟩ := h
      exact (hk a).mono fun _ hfalse => hfalse.elim
  | act x l ih => exact ⟨h.1, fun b => ih b (h.2 b)⟩
  | sub job l ih => exact ⟨h.1, fun halt => (h.2.1 halt).bind k, fun a => ih _ (h.2.2 a)⟩

theorem sub {job : Job} {k : Except Halt job.Answer → Plan α} (hjob : job.Within p)
    (hhalt : ∀ halt, (k (.error halt)).PassesOn halt)
    (hk : ∀ a, (k (.ok a)).Tidy p (job.Misfits p a)) : (Plan.sub job k).Tidy p E :=
  ⟨hjob, hhalt, hk⟩

theorem act {x : Exec β} {k : β → Plan α} (hx : x.Fits) (hk : ∀ b, (k b).Tidy p fun _ => False) :
    (Plan.act x k).Tidy p E := by
  refine ⟨fun m error w hm he => ?_, hk⟩
  rw [hx m error w hm] at he
  cases he

theorem lift {x : Exec α} (hx : x.Fits) : (liftM x : Plan α).Tidy p E := act hx .pure

theorem fail {error : RunError} (h : E error) :
    (liftM (Exec.fail error : Exec α) : Plan α).Tidy p E := by
  refine ⟨fun m error' w hx _ => ?_, .pure⟩
  cases hx
  exact ⟨h, rfl⟩

theorem single {values : List Word} (h : ∀ error, Misfit values.length 1 error → E error) :
    (liftM (single values) : Plan Word).Tidy p E := by
  match values with
  | [] => exact .fail (h _ (.single (by simp)))
  | [v] => exact .lift (.pure v)
  | v :: v' :: values => exact .fail (h _ (.single (by simp)))

theorem ask {job : Job} (hjob : job.Within p) : (Plan.ask job).Tidy p E :=
  sub hjob (fun _ => rfl) fun a => ⟨a, rfl⟩

theorem deeper {job : Job} (hjob : job.Within p) : (Plan.deeper job).Tidy p E := by
  have hmodify (k : Machine → Machine) : Exec.Fits (modify k : Exec PUnit) :=
    fun _ _ _ h => nomatch h
  refine act (hmodify _) fun _ => sub hjob (fun halt => ?_) fun a => ?_
  · exact ⟨fun m => ⟨(), m.depth - 1, rfl⟩, fun _ => rfl⟩
  · exact act (hmodify _) fun _ => ⟨a, rfl⟩

end Tidy

end Plan

def Routine.Tidy (p : Program) (r : Routine α) (E : RunError → Prop) : Prop :=
  ∀ frame, (r.run frame).Tidy p E

namespace Routine.Tidy

variable {p : Program} {E : RunError → Prop}

protected theorem pure (a : α) : Routine.Tidy p (pure a) E := fun frame => .pure (a, frame)

theorem bind {r : Routine α} {k : α → Routine β} (h : r.Tidy p E)
    (hk : ∀ a, (k a).Tidy p fun _ => False) : (r >>= k).Tidy p E :=
  fun frame => (h frame).bind fun u => hk u.1 u.2

theorem lift {x : Exec α} (hx : x.Fits) : Routine.Tidy p (x : Routine α) E :=
  fun _ => (Plan.Tidy.lift hx).bind fun _ => .pure _

theorem modify (k : Frame → Frame) : Routine.Tidy p (modify k) E := fun _ => .pure _

theorem block {b : Block} (hb : ∀ item ∈ Block.items b, item ∈ Block.items p.root) :
    (Routine.block b).Tidy p E := by
  intro frame
  have hjob : (Job.block b frame).Within p := hb
  exact .ask hjob

variable {e : Expr} {bound : Nat}

theorem evaluate_bind (he : .value e bound ∈ Block.items p.root) {k : List Word → Routine β}
    (hk : ∀ values, (k values).Tidy p fun error => Misfit values.length bound error) :
    (Routine.evaluate e >>= k).Tidy p E := by
  intro frame
  have hjob : (Job.evaluate e frame).Within p :=
    ⟨bound, fun place hplace => List.mem_flatMap.mpr ⟨_, he, hplace⟩⟩
  exact Plan.Tidy.sub hjob (fun _ => rfl) fun values =>
    (hk values frame).mono fun error herror => ⟨bound, Item.mem_places he, herror⟩

theorem evaluateSingle (he : .value e 1 ∈ Block.items p.root) :
    (Routine.evaluateSingle e).Tidy p E := by
  exact evaluate_bind he fun values frame =>
    (Plan.Tidy.single fun _ => id).bind fun v => .pure (v, frame)

theorem assign (names : List Name) (values : List Word) :
    (Routine.assign names values).Tidy p fun error => Misfit values.length names.length error := by
  rw [Routine.assign]
  by_cases hlength : names.length = values.length
  · rw [if_pos hlength]
    exact modify _
  · rw [if_neg hlength]
    exact fun _ => (Plan.Tidy.fail (.bind (Ne.symm hlength))).bind fun _ => .pure _

theorem discard (values : List Word) : Routine.Tidy p (do
    unless values.isEmpty do
      Exec.fail .discardedValues
    return none : Routine Flow) fun error => Misfit values.length 0 error := by
  by_cases hempty : values.isEmpty = true
  · simp only [if_pos hempty]
    exact .pure none
  · have hlength : values.length ≠ 0 := fun hzero =>
      hempty (List.isEmpty_iff.mpr (List.length_eq_zero_iff.mp hzero))
    simp only [if_neg hempty]
    exact fun _ => ((Plan.Tidy.fail (.discard hlength)).bind fun _ => .pure _).bind fun _ => .pure _

end Routine.Tidy

section Jobs

variable {p : Program} {E : RunError → Prop}

theorem Stmt.routine_tidy {s : Stmt} (hs : ∀ item ∈ s.items, item ∈ Block.items p.root) :
    s.routine.Tidy p E := by
  cases s with
  | expression e =>
      rw [Stmt.routine]
      exact .evaluate_bind (hs _ List.mem_cons_self) .discard
  | assignment targets value =>
      rw [Stmt.routine]
      have he := hs _ (List.mem_cons_of_mem _ List.mem_cons_self)
      exact .evaluate_bind he fun values => (Routine.Tidy.assign targets values).bind
        fun _ => .pure none
  | declaration names value =>
      cases value with
      | none =>
          rw [Stmt.routine]
          exact (Routine.Tidy.modify _).bind fun _ => .pure none
      | some value =>
          rw [Stmt.routine]
          have he := hs _ (List.mem_cons_of_mem _ List.mem_cons_self)
          exact .evaluate_bind he fun values => (Routine.Tidy.assign names values).bind
            fun _ => .pure none
  | function f => exact .pure none
  | conditional condition body =>
      rw [Stmt.routine]
      refine (Routine.Tidy.evaluateSingle (hs _ (by simp [Stmt.items]))).bind fun v => ?_
      by_cases hv : v = 0
      · rw [if_pos hv]
        exact .pure none
      · rw [if_neg hv]
        exact .block fun item hi => hs item (by simp [Stmt.items, hi])
  | switch scrutinee cases =>
      rw [Stmt.routine]
      refine (Routine.Tidy.evaluateSingle (hs _ (by simp [Stmt.items]))).bind fun v => ?_
      cases hchosen : (Case.chosen? v cases).bind (cases[·]?) with
      | none => exact .pure none
      | some c =>
          obtain ⟨i, -, hc⟩ := Option.bind_eq_some_iff.mp hchosen
          refine .block fun item hi => hs item ?_
          have hmem := Case.items_subset_of_mem (List.mem_of_getElem? hc) item hi
          simp [Stmt.items, hmem]
  | loop pre condition post body =>
      rw [Stmt.routine]
      have hpre : (Routine.block pre).Tidy p E := .block fun item hi => hs item (by simp [Stmt.items, hi])
      refine hpre.bind fun flow => ?_
      cases flow with
      | some j => exact .pure _
      | none =>
          intro frame
          have hjob : (Job.turns condition post body frame).Within p :=
            ⟨hs _ (by simp [Stmt.items]), fun item hi => hs item (by simp [Stmt.items, hi]),
              fun item hi => hs item (by simp [Stmt.items, hi])⟩
          exact .ask hjob
  | jump j => exact .pure (some j)
  | block body => exact .block fun item hi => hs item (by simp [Stmt.items, hi])

theorem Block.routine_tidy (limits : Limits) {b : Block}
    (hb : ∀ item ∈ Block.items b, item ∈ Block.items p.root) :
    (Block.routine limits b).Tidy p E := by
  cases b with
  | nil => exact .pure none
  | cons s ss =>
      rw [Block.routine]
      refine (Routine.Tidy.lift (.tick limits)).bind fun _ => ?_
      have hs : (Routine.statement s).Tidy p fun _ => False := by
        intro frame
        have hjob : (Job.statement s frame).Within p :=
          fun item hi => hb item (List.mem_append_left _ hi)
        exact .ask hjob
      refine hs.bind fun flow => ?_
      cases flow with
      | some j => exact .pure _
      | none => exact .block fun item hi => hb item (List.mem_append_right _ hi)

theorem Routine.turn_tidy (limits : Limits) {condition : Expr} {post body : Block}
    (hcondition : .value condition 1 ∈ Block.items p.root)
    (hpost : ∀ item ∈ Block.items post, item ∈ Block.items p.root)
    (hbody : ∀ item ∈ Block.items body, item ∈ Block.items p.root) :
    (Routine.turn limits condition post body).Tidy p E := by
  have hturns : (Routine.turns condition post body).Tidy p fun _ => False := by
    intro frame
    have hjob : (Job.turns condition post body frame).Within p := ⟨hcondition, hpost, hbody⟩
    exact .ask hjob
  have hnext : Routine.Tidy p (Routine.block post >>= fun j =>
      if j = some Jump.leave then pure (some Jump.leave) else
        (Exec.tick limits : Routine Unit) >>= fun _ => Routine.turns condition post body)
      fun _ => False := by
    refine (Routine.Tidy.block hpost).bind fun j => ?_
    by_cases hj : j = some Jump.leave
    · rw [if_pos hj]
      exact .pure _
    · rw [if_neg hj]
      exact (Routine.Tidy.lift (.tick limits)).bind fun _ => hturns
  rw [Routine.turn]
  refine (Routine.Tidy.evaluateSingle hcondition).bind fun v => ?_
  by_cases hv : v = 0
  · rw [if_pos hv]
    exact .pure none
  rw [if_neg hv]
  refine (Routine.Tidy.block hbody).bind fun flow => ?_
  cases flow with
  | none => exact hnext
  | some j =>
      cases j with
      | breakLoop => exact .pure none
      | continueLoop => exact hnext
      | leave => exact .pure _

theorem Function.plan_tidy {f : Function}
    (hf : ∀ item ∈ Block.items f.body, item ∈ Block.items p.root) (arguments : List Word) :
    (f.plan arguments).Tidy p E := by
  have hjob : (Job.block f.body (f.frame arguments)).Within p := hf
  rw [Function.plan]
  refine (Plan.Tidy.deeper hjob).bind ?_
  rintro ⟨flow, frame⟩
  cases flow with
  | none => exact .lift (.mapM_read frame f.returns)
  | some j =>
      cases j with
      | breakLoop | continueLoop => exact .lift (.fail rfl)
      | leave => exact .lift (.mapM_read frame f.returns)

def Program.HoldsBodies (p : Program) : Prop :=
  ∀ c f, definition? (Block.definitions p.root) c = some f →
    ∀ item ∈ Block.items f.body, item ∈ Block.items p.root

theorem Job.plan_tidy (hp : p.HoldsBodies) (limits : Limits) {job : Job} (hjob : job.Within p) :
    (job.plan limits (Block.definitions p.root)).Tidy p E := by
  cases job with
  | evaluate e frame =>
      cases e with
      | var x => exact (Plan.Tidy.lift (.read frame x)).bind fun v => .pure [v]
      | literal l => exact .pure [l.value]
      | call c arguments =>
          obtain ⟨bound, hplaces⟩ := hjob
          have harguments : (Job.evaluateAll arguments frame).Within p :=
            fun place hplace => hplaces place (List.mem_cons_of_mem _ hplace)
          have hcall (values : List Word) : (Job.call c values).Within p := trivial
          exact (Plan.Tidy.ask harguments).bind fun values => .ask (hcall values)
  | evaluateAll es frame =>
      cases es with
      | nil => exact .pure []
      | cons e es =>
          have hjobs : (Job.evaluateAll es frame).Within p :=
            fun place hplace => hjob place (List.mem_append_right _ hplace)
          have hplaces : ∀ place ∈ e.places 1, place ∈ p.places :=
            fun place hplace => hjob place (List.mem_append_left _ hplace)
          refine Plan.Tidy.sub ⟨1, hplaces⟩ (fun _ => rfl) fun values => ?_
          refine (Plan.Tidy.single fun error herror => ?_).bind fun v =>
            (Plan.Tidy.ask hjobs).bind fun vs => .pure (v :: vs)
          exact ⟨1, hplaces _ (e.mem_places_self 1), herror⟩
  | call c arguments =>
      rw [Job.plan]
      cases hf : (Block.definitions p.root).findRev? (·.name == c) with
      | none => exact .lift (.callBuiltin c arguments)
      | some f =>
          have hplan : (f.plan arguments).Tidy p fun _ => False := f.plan_tidy (hp c f hf) arguments
          have hget : Exec.Fits (get : Exec Machine) := fun _ _ _ h => nomatch h
          have hroom {E : RunError → Prop} : Plan.Tidy p ((get : Exec Machine) >>= fun m =>
              if limits.depth ≤ m.depth then
                (Exec.fail .callDepth : Exec Unit) >>= fun _ => f.plan arguments
              else f.plan arguments : Plan (List Word)) E := by
            refine (Plan.Tidy.lift hget).bind fun m => ?_
            by_cases hfull : limits.depth ≤ m.depth
            · rw [if_pos hfull]
              exact (Plan.Tidy.lift (.fail rfl)).bind fun _ => hplan
            · rw [if_neg hfull]
              exact hplan
          by_cases hlength : f.parameters.length = arguments.length
          · simp only [if_pos hlength]
            exact hroom
          · simp only [if_neg hlength]
            exact (Plan.Tidy.lift (.fail rfl)).bind fun _ => hroom
  | statement s frame => exact Stmt.routine_tidy hjob frame
  | block b frame => exact Block.routine_tidy limits hjob frame
  | turns condition post body frame => exact Routine.turn_tidy limits hjob.1 hjob.2.1 hjob.2.2 frame

end Jobs

end YulPruner
