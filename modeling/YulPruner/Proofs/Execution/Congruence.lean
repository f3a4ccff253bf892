import YulPruner.Proofs.Execution.Coupling
import YulPruner.Proofs.Syntax.Callees
import YulPruner.Proofs.Syntax.Items

namespace YulPruner

open Filter (Eventually atTop)

section Callees

variable (limits : Limits) (call : Caller) (ρ : Name → Name)

mutual

theorem Expr.evaluate_mapCallees (frame : Frame) : ∀ e : Expr,
    (e.mapCallees ρ).evaluate call frame = e.evaluate (fun c => call (ρ c)) frame
  | .var _ => rfl
  | .literal _ => rfl
  | .call _ arguments => by
      rw [Expr.mapCallees, Expr.evaluate, Expr.evaluateAll_mapCallees frame arguments,
        Expr.evaluate]

theorem Expr.evaluateAll_mapCallees (frame : Frame) : ∀ es : List Expr,
    Expr.evaluateAll call frame (Expr.mapCalleesAll ρ es) =
      Expr.evaluateAll (fun c => call (ρ c)) frame es
  | [] => rfl
  | e :: es => by
      rw [Expr.mapCalleesAll, Expr.evaluateAll, Expr.evaluate_mapCallees frame e,
        Expr.evaluateAll_mapCallees frame es, Expr.evaluateAll]

end

theorem Run.evaluate_mapCallees (e : Expr) :
    Run.evaluate call (e.mapCallees ρ) = Run.evaluate (fun c => call (ρ c)) e := by
  simp only [Run.evaluate, Expr.evaluate_mapCallees]

theorem Run.evaluateSingle_mapCallees (e : Expr) :
    Run.evaluateSingle call (e.mapCallees ρ) = Run.evaluateSingle (fun c => call (ρ c)) e := by
  rw [Run.evaluateSingle, Run.evaluate_mapCallees, Run.evaluateSingle]

theorem Case.chosen?_mapCalleesAll (selector : Word) (cases : List Case) :
    Case.chosen? selector (Case.mapCalleesAll ρ cases) = Case.chosen? selector cases := by
  have hvalues (q : Option Literal → Bool) :
      (Case.mapCalleesAll ρ cases).findIdx? (fun c => q c.value) =
        cases.findIdx? fun c => q c.value := by
    induction cases with
    | nil => rfl
    | cons c cases ih => rw [Case.mapCalleesAll, List.findIdx?_cons, ih, List.findIdx?_cons]
  rw [Case.chosen?, hvalues fun v => v.any (·.value == selector), hvalues fun v => v.isNone,
    Case.chosen?]

mutual

theorem Stmt.run_mapCallees : ∀ s : Stmt,
    (s.mapCallees ρ).run limits call = s.run limits fun c => call (ρ c)
  | .expression e => by rw [Stmt.mapCallees, Stmt.run, Run.evaluate_mapCallees, Stmt.run]
  | .assignment _ value => by rw [Stmt.mapCallees, Stmt.run, Run.evaluate_mapCallees, Stmt.run]
  | .declaration _ value => by
      cases value with
      | none => rfl
      | some e =>
          rw [Stmt.mapCallees, Option.map_some, Stmt.run, Run.evaluate_mapCallees, Stmt.run]
  | .function _ => rfl
  | .conditional _ body => by
      rw [Stmt.mapCallees, Stmt.run, Run.evaluateSingle_mapCallees, Block.run_mapCallees body,
        Stmt.run]
  | .switch _ cases => by
      simp only [Stmt.mapCallees, Stmt.run, Run.evaluateSingle_mapCallees,
        Case.chosen?_mapCalleesAll, Case.run_mapCalleesAll cases]
  | .loop pre _ post body => by
      simp only [Stmt.mapCallees, Stmt.run, Run.evaluateSingle_mapCallees,
        Block.run_mapCallees pre, Block.run_mapCallees post, Block.run_mapCallees body]
  | .jump _ => rfl
  | .block body => by rw [Stmt.mapCallees, Stmt.run, Block.run_mapCallees body, Stmt.run]

theorem Block.run_mapCallees : ∀ b : Block,
    Block.run limits call (Block.mapCallees ρ b) = Block.run limits (fun c => call (ρ c)) b
  | [] => rfl
  | s :: ss => by
      rw [Block.mapCallees, Block.run, Stmt.run_mapCallees s, Block.run_mapCallees ss, Block.run]

theorem Case.run_mapCalleesAll : ∀ (cases : List Case) (i : Nat),
    Case.run limits call (Case.mapCalleesAll ρ cases) i =
      Case.run limits (fun c => call (ρ c)) cases i
  | [], _ => rfl
  | ⟨_, body⟩ :: _, 0 => Block.run_mapCallees body
  | ⟨_, _⟩ :: cases, i + 1 => Case.run_mapCalleesAll cases i

end

end Callees

/-- Calls from the sites are coupled, whatever arguments they pass. -/
def CallsCouple (lead : Side) (R : Machine → Machine → Prop) (c c' : Nat → Caller)
    (sites : List CallSite) : Prop :=
  ∀ site ∈ sites, ∀ arguments : List Word, arguments.length = site.passed →
    Couples lead R Eq (fun n => c n site.callee arguments) fun n => c' n site.callee arguments

/-- Frames that `A` relates give the item the same values, and what the item changes keeps them
related. -/
def Item.Respects (A : Frame → Frame → Prop) : Item → Prop
  | .value e _ => ∀ frame frame', A frame frame' → ∀ x ∈ e.variables, frame.get? x = frame'.get? x
  | .assignment names | .declaration names => ∀ x ∈ names, ∀ v frame frame', A frame frame' →
      A (Frame.set x v frame) (Frame.set x v frame')
  | _ => True

structure ItemsCouple (lead : Side) (R : Machine → Machine → Prop) (A : Frame → Frame → Prop)
    (c c' : Nat → Caller) (items : List Item) : Prop where
  respects : ∀ item ∈ items, item.Respects A
  calls : CallsCouple lead R c c' (items.flatMap Item.callSites)

variable {lead : Side} {R : Machine → Machine → Prop} {A : Frame → Frame → Prop}
  {c c' : Nat → Caller}

theorem CallsCouple.mono {sites sites' : List CallSite} (h : CallsCouple lead R c c' sites)
    (hsub : ∀ site ∈ sites', site ∈ sites) : CallsCouple lead R c c' sites' :=
  fun site hsite => h site (hsub site hsite)

theorem CallsCouple.of_cons {s : Stmt} {ss : Block}
    (h : CallsCouple lead R c c' (Block.callSites (s :: ss))) :
    CallsCouple lead R c c' (Block.callSites ss) := by
  refine h.mono fun site hsite => ?_
  rw [Block.callSites_cons]
  exact List.mem_append_right _ hsite

theorem ItemsCouple.mono {items items' : List Item} (h : ItemsCouple lead R A c c' items)
    (hsub : ∀ item ∈ items', item ∈ items) : ItemsCouple lead R A c c' items' := by
  refine ⟨fun item hi => h.respects item (hsub item hi), h.calls.mono fun site hsite => ?_⟩
  obtain ⟨item, hi, hs⟩ := List.mem_flatMap.mp hsite
  exact List.mem_flatMap.mpr ⟨item, hsub item hi, hs⟩

theorem ItemsCouple.own {b : Block} (h : ItemsCouple lead R A c c' (Block.items b)) :
    ItemsCouple lead R A c c' (Block.ownItems b) :=
  h.mono fun _ hi => (Block.ownItems_sublist b).subset hi

theorem ItemsCouple.calls_value {items : List Item} (h : ItemsCouple lead R A c c' items) {e : Expr}
    {bound : Nat} (he : .value e bound ∈ items) : CallsCouple lead R c c' (e.callSites bound) :=
  h.calls.mono fun _ hsite => List.mem_flatMap.mpr ⟨_, he, hsite⟩

theorem single_couples (vs : List Word) :
    Couples lead R Eq (fun _ => single vs) (fun _ => single vs) := by
  match vs with
  | [] => exact .fail _
  | [v] => exact .pure rfl
  | _ :: _ :: _ => exact .fail _

theorem Frame.read_couples {frame frame' : Frame} {x : Name} (h : frame.get? x = frame'.get? x) :
    Couples lead R Eq (fun _ => frame.read x) (fun _ => frame'.read x) := by
  simp only [Frame.read, h]
  cases frame'.get? x with
  | some v => exact .pure rfl
  | none => exact .fail _

mutual

theorem Expr.evaluate_couples {frame frame' : Frame} (bound : Nat) : ∀ e : Expr,
    CallsCouple lead R c c' (e.callSites bound) →
    (∀ x ∈ e.variables, frame.get? x = frame'.get? x) →
    Couples lead R Eq (fun n => e.evaluate (c n) frame) (fun n => e.evaluate (c' n) frame')
  | .var x, _, hread => by
      refine (Frame.read_couples (hread x List.mem_cons_self)).bind ?_
      rintro v _ rfl
      exact .pure rfl
  | .literal _, _, _ => .pure rfl
  | .call callee arguments, hcalls, hread => by
      have harguments := Expr.evaluateAll_couples arguments
        (hcalls.mono fun _ hsite => List.mem_cons_of_mem _ hsite) hread
      refine harguments.bind ?_
      rintro vs _ ⟨rfl, hlength⟩
      exact hcalls _ List.mem_cons_self vs hlength

theorem Expr.evaluateAll_couples {frame frame' : Frame} : ∀ es : List Expr,
    CallsCouple lead R c c' (Expr.callSitesAll es) →
    (∀ x ∈ Expr.variablesAll es, frame.get? x = frame'.get? x) →
    Couples lead R (fun vs ws => vs = ws ∧ vs.length = es.length)
      (fun n => Expr.evaluateAll (c n) frame es) (fun n => Expr.evaluateAll (c' n) frame' es)
  | [], _, _ => .pure ⟨rfl, rfl⟩
  | e :: es, hcalls, hread => by
      have hfirst := Expr.evaluate_couples 1 e
        (hcalls.mono fun _ hsite => List.mem_append_left _ hsite)
        fun x hx => hread x (List.mem_append_left _ hx)
      have hrest := Expr.evaluateAll_couples es
        (hcalls.mono fun _ hsite => List.mem_append_right _ hsite)
        fun x hx => hread x (List.mem_append_right _ hx)
      refine hfirst.bind ?_
      rintro vs _ rfl
      refine (single_couples vs).bind ?_
      rintro v _ rfl
      refine hrest.bind ?_
      rintro ws _ ⟨rfl, hlength⟩
      exact .pure ⟨rfl, congrArg Nat.succ hlength⟩

end

namespace ItemsCouple

variable {items : List Item} (h : ItemsCouple lead R A c c' items)

include h

theorem evaluate {e : Expr} {bound : Nat} (he : .value e bound ∈ items) :
    RunCouples lead R A (fun n => Run.evaluate (c n) e) (fun n => Run.evaluate (c' n) e) := by
  intro frame frame' hframe
  have hvalue := Expr.evaluate_couples bound e (h.calls_value he) (h.respects _ he frame frame' hframe)
  refine hvalue.bind ?_
  rintro vs _ rfl
  exact .pure ⟨rfl, hframe⟩

theorem evaluateSingle {e : Expr} {bound : Nat} (he : .value e bound ∈ items) :
    RunCouples lead R A (fun n => Run.evaluateSingle (c n) e)
      (fun n => Run.evaluateSingle (c' n) e) :=
  (h.evaluate he).bind fun vs => .lift (single_couples vs)

omit h in
theorem setAll {names : List Name} (hnames : ∀ x ∈ names, ∀ v frame frame', A frame frame' →
      A (Frame.set x v frame) (Frame.set x v frame')) {values : List (Name × Word)}
    (hvalues : ∀ xv ∈ values, xv.1 ∈ names) {frame frame' : Frame} (hframe : A frame frame') :
    A (frame.setAll values) (frame'.setAll values) := by
  induction values generalizing frame frame' with
  | nil => exact hframe
  | cons xv values ih =>
      exact ih (fun yw hyw => hvalues yw (List.mem_cons_of_mem _ hyw))
        (hnames _ (hvalues xv List.mem_cons_self) _ _ _ hframe)

omit h in
theorem assign {names : List Name} (hnames : ∀ x ∈ names, ∀ v frame frame', A frame frame' →
      A (Frame.set x v frame) (Frame.set x v frame')) (values : List Word) :
    RunCouples lead R A (fun _ => Run.assign names values) (fun _ => Run.assign names values) := by
  rw [Run.assign]
  by_cases hlength : names.length = values.length
  · rw [if_pos hlength]
    exact .modify fun frame frame' hframe =>
      setAll hnames (fun xv hxv => (List.of_mem_zip hxv).1) hframe
  · rw [if_neg hlength]
    exact .fail _

end ItemsCouple

/-- Steps are counted on both sides at once, and loops are bounded alike. -/
structure InStep (lead : Side) (R : Machine → Machine → Prop) (limits limits' : Nat → Limits) :
    Prop where
  tick : Couples lead R Eq (fun n => Exec.tick (limits n)) fun n => Exec.tick (limits' n)
  turns : ∃ k, Outlasts lead (fun n => (limits n).steps + 1) (fun n => (limits' n).steps + 1) k

theorem InStep.refl (limits : Limits) :
    InStep .neither Eq (fun _ => limits) fun _ => limits where
  tick := .refl _
  turns := ⟨limits.steps + 1, Eventually.of_forall fun _ => ⟨rfl, rfl⟩⟩

namespace InStep

variable {limits limits' : Nat → Limits}

section Turns

variable {condition condition' : Nat → Run Word} {body body' post post' : Nat → Run Flow}
  (hcondition : RunCouples lead R A condition condition')
  (hbody : RunCouples lead R A body body') (hpost : RunCouples lead R A post post')

include hcondition hbody hpost

theorem turn_couples (h : InStep lead R limits limits') {b b' : Nat → Nat}
    (hrest : RunCouples lead R A
      (fun n => Run.turns (limits n) (condition n) (body n) (post n) (b n))
      fun n => Run.turns (limits' n) (condition' n) (body' n) (post' n) (b' n)) :
    RunCouples lead R A
      (fun n => Run.turns (limits n) (condition n) (body n) (post n) (b n + 1))
      fun n => Run.turns (limits' n) (condition' n) (body' n) (post' n) (b' n + 1) := by
  have hnext : RunCouples lead R A
      (fun n => post n >>= fun j => if j = some Jump.leave then pure (some Jump.leave) else
        (Exec.tick (limits n) : Run Unit) >>= fun _ =>
          Run.turns (limits n) (condition n) (body n) (post n) (b n))
      (fun n => post' n >>= fun j => if j = some Jump.leave then pure (some Jump.leave) else
        (Exec.tick (limits' n) : Run Unit) >>= fun _ =>
          Run.turns (limits' n) (condition' n) (body' n) (post' n) (b' n)) := by
    refine hpost.bind fun j => ?_
    by_cases hj : j = some Jump.leave
    · simp only [if_pos hj]
      exact .pure _
    · simp only [if_neg hj]
      exact (RunCouples.lift h.tick).bind fun _ => hrest
  simp only [Run.turns]
  refine hcondition.bind fun v => ?_
  by_cases hv : v = 0
  · simp only [if_pos hv]
    exact .pure none
  simp only [if_neg hv]
  refine hbody.bind fun flow => ?_
  cases flow with
  | none => exact hnext
  | some j =>
      cases j with
      | breakLoop => exact .pure none
      | continueLoop => exact hnext
      | leave => exact .pure _

theorem turns_couples (h : InStep lead R limits limits') {b b' : Nat → Nat} {k : Nat}
    (hbound : Outlasts lead b b' k) : RunCouples lead R A
      (fun n => Run.turns (limits n) (condition n) (body n) (post n) (b n))
      fun n => Run.turns (limits' n) (condition' n) (body' n) (post' n) (b' n) := by
  induction k generalizing b b' with
  | zero =>
      -- The leader has no turns left, and that counts as running out of steps.
      intro frame frame' _ m m' hm
      cases lead with
      | left =>
          refine Or.inl (Eventually.mono hbound fun n hn => ?_)
          simp only [hn.1]
          exact ⟨_, m, rfl, Or.inl rfl⟩
      | right =>
          refine Or.inl (Eventually.mono hbound fun n hn => ?_)
          simp only [hn.1]
          exact ⟨_, m', rfl, Or.inl rfl⟩
      | neither =>
          refine Or.inr ⟨.error (.failed .stepLimit) m, .error (.failed .stepLimit) m', ?_, ?_,
            .error hm⟩
          · exact Eventually.mono hbound fun n hn => by simp only [hn.1]; rfl
          · exact Eventually.mono hbound fun n hn => by simp only [hn.2]; rfl
  | succ k ih =>
      -- In the long run both have a turn left.
      have hpred {b : Nat → Nat} (hb : ∀ᶠ n in atTop, k + 1 ≤ b n) :
          ∀ᶠ n in atTop, b n = b n - 1 + 1 := hb.mono fun n hn => by omega
      have hturn := turn_couples hcondition hbody hpost h (ih hbound.pred)
      refine hturn.congr ?_ ?_
      · exact (hpred hbound.le.1).mono fun n hn => by rw [← hn]
      · exact (hpred hbound.le.2).mono fun n hn => by rw [← hn]

end Turns

mutual

theorem stmt_couples (h : InStep lead R limits limits') : ∀ s : Stmt,
    ItemsCouple lead R A c c' s.ownItems →
    RunCouples lead R A (fun n => s.run (limits n) (c n)) (fun n => s.run (limits' n) (c' n))
  | .expression e, hitems => by
      simp only [Stmt.run]
      refine (hitems.evaluate List.mem_cons_self).bind fun vs => ?_
      by_cases hvs : vs.isEmpty = true
      · simp only [if_pos hvs]
        exact .pure none
      · simp only [if_neg hvs]
        exact (RunCouples.fail _).bind fun _ => .pure none
  | .assignment targets value, hitems => by
      simp only [Stmt.run]
      refine (hitems.evaluate (List.mem_cons_of_mem _ List.mem_cons_self)).bind fun vs => ?_
      exact (ItemsCouple.assign (hitems.respects _ List.mem_cons_self) vs).bind fun _ => .pure none
  | .declaration names value, hitems => by
      have hnames := hitems.respects _ List.mem_cons_self
      cases value with
      | some e =>
          simp only [Stmt.run]
          refine (hitems.evaluate (List.mem_cons_of_mem _ List.mem_cons_self)).bind fun vs => ?_
          exact (ItemsCouple.assign hnames vs).bind fun _ => .pure none
      | none =>
          refine (RunCouples.modify fun frame frame' hframe => ?_).bind fun _ => .pure none
          refine ItemsCouple.setAll hnames (fun xv hxv => ?_) hframe
          obtain ⟨x, hx, rfl⟩ := List.mem_map.mp hxv
          exact hx
  | .function _, _ => .pure none
  | .conditional condition body, hitems => by
      simp only [Stmt.run]
      refine (hitems.evaluateSingle (List.mem_cons_of_mem _ List.mem_cons_self)).bind fun v => ?_
      by_cases hv : v = 0
      · simp only [if_pos hv]
        exact .pure none
      · simp only [if_neg hv]
        exact h.block_couples body (hitems.mono fun _ hi => by simp [Stmt.ownItems, hi])
  | .switch scrutinee cases, hitems => by
      simp only [Stmt.run]
      refine (hitems.evaluateSingle (List.mem_cons_of_mem _ List.mem_cons_self)).bind fun v => ?_
      cases Case.chosen? v cases with
      | none => exact .pure none
      | some i => exact h.case_couples cases i (hitems.mono fun _ hi => by simp [Stmt.ownItems, hi])
  | .loop pre condition post body, hitems => by
      have hpre := h.block_couples pre (hitems.mono fun _ hi => by simp [Stmt.ownItems, hi])
      have hpost := h.block_couples post (hitems.mono fun _ hi => by simp [Stmt.ownItems, hi])
      have hbody := h.block_couples body (hitems.mono fun _ hi => by simp [Stmt.ownItems, hi])
      have hvalue : Item.value condition 1 ∈ (Stmt.loop pre condition post body).ownItems := by
        simp [Stmt.ownItems]
      obtain ⟨k, hk⟩ := h.turns
      simp only [Stmt.run]
      refine hpre.bind fun flow => ?_
      cases flow with
      | some j => exact .pure _
      | none => exact turns_couples (hitems.evaluateSingle hvalue) hbody hpost h hk
  | .jump j, _ => .pure (some j)
  | .block body, hitems => h.block_couples body hitems

theorem block_couples (h : InStep lead R limits limits') : ∀ b : Block,
    ItemsCouple lead R A c c' (Block.ownItems b) →
    RunCouples lead R A (fun n => Block.run (limits n) (c n) b)
      (fun n => Block.run (limits' n) (c' n) b)
  | [], _ => .pure none
  | s :: ss, hitems => by
      have hs := h.stmt_couples s (hitems.mono fun _ hi => List.mem_append_left _ hi)
      have hss := h.block_couples ss (hitems.mono fun _ hi => List.mem_append_right s.ownItems hi)
      simp only [Block.run]
      refine (RunCouples.lift h.tick).bind fun _ => hs.bind fun flow => ?_
      cases flow with
      | some j => exact .pure _
      | none => exact hss

theorem case_couples (h : InStep lead R limits limits') : ∀ (cases : List Case) (i : Nat),
    ItemsCouple lead R A c c' (Case.ownItems cases) →
    RunCouples lead R A (fun n => Case.run (limits n) (c n) cases i)
      (fun n => Case.run (limits' n) (c' n) cases i)
  | [], _, _ => .pure none
  | ⟨_, body⟩ :: _, 0, hitems =>
      h.block_couples body (hitems.mono fun _ hi => List.mem_append_left _ hi)
  | ⟨_, _⟩ :: cases, i + 1, hitems =>
      h.case_couples cases i (hitems.mono fun _ hi => List.mem_append_right _ hi)

end

end InStep

end YulPruner
