import YulPruner.Proofs.Execution.Limits

namespace YulPruner

open Filter (Eventually atTop)

/-- The function that a call by name reaches. -/
def definition? (functions : List Function) (c : Name) : Option Function :=
  functions.findRev? (·.name == c)

section Invoke

variable {limits : Limits} {functions : List Function} {c : Name} {arguments : List Word}
  {m : Machine} {f : Function}

theorem dispatch_of_none (h : definition? functions c = none)
    (apply : Function → List Word → Exec (List Word)) :
    dispatch limits functions apply c arguments = callBuiltin c arguments := by
  rw [definition?] at h
  rw [dispatch, h]

theorem invoke_of_none (h : definition? functions c = none) (room : Nat) :
    invoke limits functions room c arguments = callBuiltin c arguments := by
  cases room with
  | zero => exact dispatch_of_none h _
  | succ room => exact dispatch_of_none h _

theorem dispatch_of_full (h : definition? functions c = some f)
    (hlength : f.parameters.length = arguments.length) (hfull : limits.depth ≤ m.depth)
    (apply : Function → List Word → Exec (List Word)) :
    dispatch limits functions apply c arguments m = .error (.failed .callDepth) m := by
  rw [definition?] at h
  rw [dispatch, h]
  simp only [if_pos hlength]
  rw [get_bind, if_pos hfull]
  rfl

theorem dispatch_of_room (h : definition? functions c = some f)
    (hlength : f.parameters.length = arguments.length) (hroom : m.depth < limits.depth)
    (apply : Function → List Word → Exec (List Word)) :
    dispatch limits functions apply c arguments m = apply f arguments m := by
  rw [definition?] at h
  rw [dispatch, h]
  simp only [if_pos hlength]
  rw [get_bind, if_neg (Nat.not_le.mpr hroom)]

theorem dispatch_of_length_ne (h : definition? functions c = some f)
    (hlength : f.parameters.length ≠ arguments.length)
    (apply : Function → List Word → Exec (List Word)) :
    dispatch limits functions apply c arguments =
      Exec.fail (.argumentCount f.name f.parameters.length arguments.length) := by
  rw [definition?] at h
  rw [dispatch, h]
  simp only [if_neg hlength]
  rfl

theorem invoke_of_length_ne (h : definition? functions c = some f)
    (hlength : f.parameters.length ≠ arguments.length) (room : Nat) :
    invoke limits functions room c arguments =
      Exec.fail (.argumentCount f.name f.parameters.length arguments.length) := by
  cases room with
  | zero => exact dispatch_of_length_ne h hlength _
  | succ room => exact dispatch_of_length_ne h hlength _

theorem invoke_eq_of_full (h : definition? functions c = some f)
    (hlength : f.parameters.length = arguments.length) (hfull : limits.depth ≤ m.depth)
    (room : Nat) : invoke limits functions room c arguments m = .error (.failed .callDepth) m := by
  cases room with
  | zero => exact dispatch_of_full h hlength hfull _
  | succ room => exact dispatch_of_full h hlength hfull _

theorem invoke_of_full (h : definition? functions c = some f)
    (hlength : f.parameters.length = arguments.length) (hfull : limits.depth ≤ m.depth)
    (room : Nat) : (invoke limits functions room c arguments).HitsLimit m :=
  ⟨.failed .callDepth, m, invoke_eq_of_full h hlength hfull room, Or.inr rfl⟩

theorem invoke_of_room (h : definition? functions c = some f)
    (hlength : f.parameters.length = arguments.length) (hroom : m.depth < limits.depth)
    (room : Nat) : invoke limits functions (room + 1) c arguments m =
      f.apply limits (invoke limits functions room) arguments m :=
  dispatch_of_room h hlength hroom _

end Invoke

/-- What stands behind a callee in the right table, under its new name. -/
inductive LinksCallee (left right : List Function) (ρ : Name → Name) (c : Name) : Prop
  | absent (hl : definition? left c = none) (hr : definition? right c = none) (hc : ρ c = c)
  | kept {f : Function} (hl : definition? left c = some f)
      (hr : definition? right (ρ c) = some (f.mapCallees ρ))
  | split {f g : Function} (hl : definition? left c = some f)
      (hr : definition? right (ρ c) = some g) (hshim : g.IsShim f) (hnodup : g.heading.Nodup)
      (htrim : definition? right f.name = some (f.trim.mapCallees ρ)) (hkeeps : f.KeepsReturns)

/-- Two tables for calls from the given sites, among which are those in the functions that they
reach. -/
structure LinksTables (left right : List Function) (ρ : Name → Name) (sites : List CallSite) :
    Prop where
  callee {site : CallSite} : site ∈ sites → LinksCallee left right ρ site.callee
  arity {site : CallSite} {f : Function} : site ∈ sites → definition? left site.callee = some f →
    f.parameters.length = site.passed
  body {site : CallSite} {f : Function} : site ∈ sites → definition? left site.callee = some f →
    ∀ s ∈ Block.callSites f.body, s ∈ sites

variable {lead : Side} {limits limits' : Nat → Limits} {D D' : Nat} {pace : Count → Count → Prop}
  {reach : Nat → Nat → Prop} {d d' : Nat} {α β : Type}

theorem Function.apply_couples {R R' : Machine → Machine → Prop} (hR : Deepens R R') {f g : Function}
    (hname : g.name = f.name) {A : Frame → Frame → Prop} {V : List Word → List Word → Prop}
    {c c' : Nat → Caller} {arguments arguments' : List Word}
    (hbody : Couples lead R' (fun u v => u.1 = v.1 ∧ A u.2 v.2)
      (fun n => (Block.run (limits n) (c n) f.body).run (f.frame arguments))
      fun n => (Block.run (limits' n) (c' n) g.body).run (g.frame arguments'))
    (hreturns : ∀ frame frame', A frame frame' → Couples lead R V
      (fun _ => f.returns.mapM frame.read) fun _ => g.returns.mapM frame'.read) :
    Couples lead R V (fun n => f.apply (limits n) (c n) arguments)
      fun n => g.apply (limits' n) (c' n) arguments' := by
  simp only [Function.apply]
  refine (hbody.deeper hR).bind ?_
  rintro ⟨flow, frame⟩ ⟨_, frame'⟩ ⟨rfl, hframe⟩
  cases flow with
  | none => exact hreturns frame frame' hframe
  | some j =>
      cases j with
      | breakLoop => rw [hname]; exact .fail _
      | continueLoop => rw [hname]; exact .fail _
      | leave => exact hreturns frame frame' hframe

theorem Frame.mapM_read_couples {R : Machine → Machine → Prop} {frame frame' : Frame}
    {names : List Name} (h : ∀ x ∈ names, frame.get? x = frame'.get? x) :
    Couples lead R Eq (fun _ => names.mapM frame.read) fun _ => names.mapM frame'.read := by
  induction names with
  | nil => exact .pure rfl
  | cons x names ih =>
      simp only [List.mapM_cons]
      refine (Frame.read_couples (h x List.mem_cons_self)).bind ?_
      rintro v _ rfl
      refine (ih fun y hy => h y (List.mem_cons_of_mem _ hy)).bind ?_
      rintro vs _ rfl
      exact .pure rfl

theorem Item.respects_eq (item : Item) : item.Respects Eq := by
  cases item with
  | value e bound =>
      rintro frame _ rfl x _
      rfl
  | assignment names | declaration names =>
      rintro x _ v frame _ rfl
      rfl
  | _ => trivial

namespace Lockstep

variable (h : Lockstep lead limits limits' D D' pace reach)

include h

theorem apply_kept {f : Function} {ρ : Name → Name} {c c' : Nat → Caller} (arguments : List Word)
    (hcalls : CallsCouple lead (Linked pace (d + 1) (d' + 1)) c (fun n k => c' n (ρ k))
      (Block.callSites f.body)) :
    Couples lead (Linked pace d d') Eq (fun n => f.apply (limits n) (c n) arguments)
      fun n => (f.mapCallees ρ).apply (limits' n) (c' n) arguments := by
  refine Function.apply_couples (deepens_linked pace d d') (f := f) (g := f.mapCallees ρ) (A := Eq)
    rfl ?_ ?_
  · simp only [Function.mapCallees_body, Block.run_mapCallees]
    have hitems : ItemsCouple lead (Linked pace (d + 1) (d' + 1)) Eq c (fun n k => c' n (ρ k))
        (Block.items f.body) := ⟨fun item _ => item.respects_eq, hcalls⟩
    exact h.inStep.block_couples f.body hitems.own _ _ rfl
  · rintro frame _ rfl
    exact Frame.mapM_read_couples fun _ _ => rfl

theorem invoke_couples_of_room {V : List Word → List Word → Prop} {left right : List Function}
    {c c' : Name} {f g : Function} {arguments arguments' : List Word}
    (hl : definition? left c = some f)
    (hlength : f.parameters.length = arguments.length) (hr : definition? right c' = some g)
    (hlength' : g.parameters.length = arguments'.length) {room room' : Nat} (hroom : room + d = D)
    (hroom' : room' + d' = D') (hreach : reach d d')
    (happly : ∀ k k', room = k + 1 → room' = k' + 1 → Couples lead (Linked pace d d') V
      (fun n => f.apply (limits n) (invoke (limits n) left k) arguments)
      fun n => g.apply (limits' n) (invoke (limits' n) right k') arguments') :
    Couples lead (Linked pace d d') V (fun n => invoke (limits n) left room c arguments)
      fun n => invoke (limits' n) right room' c' arguments' := by
  rcases h.room hreach with ⟨hlead, hfull⟩ | ⟨hlead, hfull⟩ | ⟨hfree, hfree'⟩
  · refine .of_left hlead fun m m' hm => Eventually.of_forall fun n => ?_
    exact invoke_of_full hl hlength (by rw [h.depth, hm.depth]; exact hfull) room
  · refine .of_right hlead fun m m' hm => Eventually.of_forall fun n => ?_
    exact invoke_of_full hr hlength' (by rw [h.depth', hm.depth']; exact hfull) room'
  · obtain ⟨k, rfl⟩ : ∃ k, room = k + 1 := ⟨room - 1, by omega⟩
    obtain ⟨k', rfl⟩ : ∃ k', room' = k' + 1 := ⟨room' - 1, by omega⟩
    refine (happly k k' rfl rfl).congr (fun m m' hm => ?_) fun m m' hm => ?_
    · refine Eventually.of_forall fun n => invoke_of_room hl hlength ?_ k
      rw [h.depth, hm.depth]
      exact hfree
    · refine Eventually.of_forall fun n => invoke_of_room hr hlength' ?_ k'
      rw [h.depth', hm.depth']
      exact hfree'

theorem invoke_couples_self (functions : List Function) {room room' : Nat} (hroom : room + d = D)
    (hroom' : room' + d' = D') (hreach : reach d d') (c : Name) (arguments : List Word) :
    Couples lead (Linked pace d d') Eq (fun n => invoke (limits n) functions room c arguments)
      fun n => invoke (limits' n) functions room' c arguments := by
  induction room using Nat.strong_induction_on generalizing room' d d' c arguments with
  | _ room ih =>
  cases hf : definition? functions c with
  | none =>
      simp only [invoke_of_none hf]
      exact callBuiltin_couples c arguments
  | some f =>
      by_cases hlength : f.parameters.length = arguments.length
      · refine h.invoke_couples_of_room hf hlength hf hlength hroom hroom' hreach ?_
        rintro k k' rfl rfl
        have hcalls : CallsCouple lead (Linked pace (d + 1) (d' + 1))
            (fun n => invoke (limits n) functions k) (fun n => invoke (limits' n) functions k')
            (Block.callSites f.body) := fun site _ values _ =>
          ih k (Nat.lt_succ_self k) (by omega) (by omega) (h.reach_call hreach) site.callee values
        simpa only [f.mapCallees_id] using h.apply_kept (ρ := fun c => c) arguments hcalls
      · simp only [invoke_of_length_ne hf hlength]
        exact .fail _

end Lockstep

namespace Regime

variable (h : Regime lead limits limits' D D' pace reach)

include h

theorem apply_trim {f : Function} (hkeeps : f.KeepsReturns) {ρ : Name → Name} {c c' : Nat → Caller}
    {arguments : List Word} (hlength : arguments.length = f.parameters.length)
    (hcalls : CallsCouple lead (Linked pace (d + 1) (d' + 1)) c (fun n k => c' n (ρ k))
      (Block.callSites f.body)) :
    Couples lead (Linked pace d d')
      (fun vs ws => vs = f.spread f.returns ws ∧ ws.length = f.trim.returns.length)
      (fun n => f.apply (limits n) (c n) arguments)
      fun n => (f.trim.mapCallees ρ).apply (limits' n) (c' n)
        (f.mentioned f.parameters arguments) := by
  refine Function.apply_couples (deepens_linked pace d d') (f := f) (g := f.trim.mapCallees ρ)
    (A := f.FramesAgree) rfl ?_ ?_
  · simp only [Function.mapCallees_body, Function.trim_body, Block.run_mapCallees]
    have hitems : ItemsCouple lead (Linked pace (d + 1) (d' + 1)) f.FramesAgree c
        (fun n k => c' n (ρ k)) (Block.items f.body) := ⟨f.respects_framesAgree hkeeps, hcalls⟩
    exact h.inStep.block_couples f.body hitems.own _ _ (f.framesAgree_frame hlength)
  · exact fun frame frame' hframe => hframe.read_couples fun _ hx => hx

/-- If a function is coupled with what its shim calls, it is coupled with the shim. -/
theorem apply_shim {f g : Function} (hshim : g.IsShim f) (hnodup : g.heading.Nodup)
    {x : Nat → Exec (List Word)} {c' : Nat → Caller} {arguments : List Word}
    (hlength : arguments.length = f.parameters.length)
    (hcall : Couples lead (Linked pace d (d' + 1))
      (fun vs ws => vs = f.spread f.returns ws ∧ ws.length = f.trim.returns.length) x
      fun n => c' n f.name (f.mentioned f.parameters arguments)) :
    Couples lead (Linked pace d d') Eq x fun n => g.apply (limits' n) (c' n) arguments := by
  intro m m' hm
  rcases h.steps_shim hm.steps with ⟨rfl, hspent⟩ | ⟨hpace, hfree⟩
  · exact Or.inl (hspent.mono fun n hn => hshim.apply_hitsLimit hnodup hlength hn)
  have henter : Linked pace d (d' + 1) m m'.enter :=
    ⟨hm.events, hm.storage, hm.depth, congrArg Nat.succ hm.depth', hpace⟩
  have hleave {w w' : Machine} (hw : Linked pace d (d' + 1) w w') : Linked pace d d' w w'.leave :=
    ⟨hw.events, hw.storage, hw.depth, by simp [Machine.leave, hw.depth'], hw.steps⟩
  rcases hcall m m'.enter henter with hescape | ⟨r, r', hx, hy, halike⟩
  · refine Or.inl ?_
    cases lead with
    | left => exact hescape
    | right =>
        filter_upwards [hfree, hescape]
        rintro n hn ⟨e, w, hlimit, he⟩
        exact ⟨e, _, hshim.apply_of_error hnodup hlength hn hlimit, he⟩
    | neither => exact hescape.elim
  · cases halike with
    | ok hv hw =>
        obtain ⟨rfl, hvalues⟩ := hv
        refine Or.inr ⟨_, _, hx, ?_, .ok rfl (hleave hw)⟩
        exact (hfree.and hy).mono fun n hn => hshim.apply_of_ok hnodup hlength hn.1 hn.2 hvalues
    | error hw =>
        refine Or.inr ⟨_, _, hx, ?_, .error (hleave hw)⟩
        exact (hfree.and hy).mono fun n hn => hshim.apply_of_error hnodup hlength hn.1 hn.2

variable {left right : List Function} {ρ : Name → Name} {arguments : List Word}

theorem invoke_trim_couples {V : List Word → List Word → Prop} {x : Nat → Exec (List Word)}
    {c' : Name} {g : Function} {arguments' : List Word} (hr : definition? right c' = some g)
    (hlength' : g.parameters.length = arguments'.length) {room' : Nat}
    (hroom' : room' + (d' + 1) = D') (hreach : reach d d') (hfree : d < D)
    (happly : ∀ k', room' = k' + 1 → Couples lead (Linked pace d (d' + 1)) V x
      fun n => g.apply (limits' n) (invoke (limits' n) right k') arguments') :
    Couples lead (Linked pace d (d' + 1)) V x
      fun n => invoke (limits' n) right room' c' arguments' := by
  rcases h.room_shim hreach hfree with ⟨hlead, hfull⟩ | hfree'
  · refine .of_right hlead fun m m' hm => Eventually.of_forall fun n => ?_
    exact invoke_of_full hr hlength' (by rw [h.depth', hm.depth']; exact hfull) room'
  · obtain ⟨k', rfl⟩ : ∃ k', room' = k' + 1 := ⟨room' - 1, by omega⟩
    refine (happly k' rfl).congr (fun m m' hm => Eventually.of_forall fun n => rfl)
      fun m m' hm => Eventually.of_forall fun n => invoke_of_room hr hlength' ?_ k'
    rw [h.depth', hm.depth']
    exact hfree'

/-- Calls from the sites are coupled, whatever room is left for them. -/
theorem invoke_couples {sites : List CallSite} (hlinks : LinksTables left right ρ sites)
    {room room' : Nat} (hroom : room + d = D) (hroom' : room' + d' = D') (hreach : reach d d') :
    CallsCouple lead (Linked pace d d') (fun n => invoke (limits n) left room)
      (fun n c => invoke (limits' n) right room' (ρ c)) sites := by
  induction room using Nat.strong_induction_on generalizing room' d d' with
  | _ room ih =>
  intro site hsite arguments hpassed
  cases hlinks.callee hsite with
  | absent hl hr hc =>
      simp only [hc, invoke_of_none hl, invoke_of_none hr]
      exact callBuiltin_couples _ _
  | @kept f hl hr =>
      have hlength : f.parameters.length = arguments.length :=
        (hlinks.arity hsite hl).trans hpassed.symm
      refine h.invoke_couples_of_room hl hlength hr hlength hroom hroom' hreach ?_
      rintro k k' rfl rfl
      refine h.apply_kept arguments (CallsCouple.mono (ih k (Nat.lt_succ_self k) (by omega) (by omega)
        (h.reach_call hreach)) (hlinks.body hsite hl))
  | @split f g hl hr hshim hnodup htrim hkeeps =>
      have hlength : f.parameters.length = arguments.length :=
        (hlinks.arity hsite hl).trans hpassed.symm
      refine h.invoke_couples_of_room hl hlength hr (hshim.parameters_length.trans hlength) hroom
        hroom' hreach ?_
      -- The shim takes a level of the right run before the function behind it takes the next.
      rintro k k' rfl rfl
      refine h.apply_shim hshim hnodup hlength.symm ?_
      refine h.invoke_trim_couples htrim (f.mentioned_length hlength.symm).symm (by omega) hreach
        (by omega) ?_
      rintro k'' rfl
      refine h.apply_trim hkeeps hlength.symm (CallsCouple.mono (ih k (Nat.lt_succ_self k) (by omega)
        (by omega) (h.reach_shim hreach)) (hlinks.body hsite hl))

end Regime

end YulPruner
