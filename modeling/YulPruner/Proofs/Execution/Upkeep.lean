import YulPruner.Execution.Run
import YulPruner.Proofs.Basic
import YulPruner.Proofs.Syntax.Places

namespace YulPruner

variable {α β : Type}

/-- From `m`, the computation ends normally where `V` holds, or it halts where `H` holds. -/
def Exec.Ends (x : Exec α) (V : α → Machine → Prop) (H : Halt → Machine → Prop) (m : Machine) :
    Prop :=
  match x m with
  | .ok a m' => V a m'
  | .error h m' => H h m'

namespace Exec.Ends

variable {V W : α → Machine → Prop} {H H' : Halt → Machine → Prop} {x y : Exec α} {m : Machine}

protected theorem pure {a : α} (h : V a m) : (pure a : Exec α).Ends V H m := h

protected theorem fail {e : RunError} (h : H (.failed e) m) : (Exec.fail e : Exec α).Ends V H m := h

theorem of_ok (h : x.Ends V H m) {a : α} {m' : Machine} (hx : x m = .ok a m') : V a m' := by
  rwa [Ends, hx] at h

theorem of_error (h : x.Ends V H m) {halt : Halt} {m' : Machine} (hx : x m = .error halt m') :
    H halt m' := by
  rwa [Ends, hx] at h

theorem congr (h : x.Ends V H m) (hxy : y m = x m) : y.Ends V H m := by
  rwa [Ends, hxy]

theorem mono (h : x.Ends V H m) (hV : ∀ a m', x m = .ok a m' → V a m' → W a m')
    (hH : ∀ halt m', H halt m' → H' halt m') : x.Ends W H' m := by
  cases hx : x m with
  | ok a m' =>
      rw [Ends, hx]
      exact hV a m' hx (h.of_ok hx)
  | error halt m' =>
      rw [Ends, hx]
      exact hH halt m' (h.of_error hx)

theorem forget (h : x.Ends V H m) : x.Ends (fun _ _ => True) H m :=
  h.mono (fun _ _ _ _ => trivial) fun _ _ hhalt => hhalt

theorem bind {V' : β → Machine → Prop} {k : α → Exec β} (h : x.Ends V H m)
    (hk : ∀ a m', x m = .ok a m' → V a m' → (k a).Ends V' H m') : (x >>= k).Ends V' H m := by
  cases hx : x m with
  | ok a m' =>
      have hrest := hk a m' hx (h.of_ok hx)
      rwa [Ends, ← bind_of_ok hx k] at hrest
  | error halt m' =>
      rw [Ends, bind_of_error hx]
      exact h.of_error hx

theorem tick {limits : Limits} {V : Unit → Machine → Prop}
    (hV : V () { m with steps := m.steps + 1 })
    (hH : H (.failed .stepLimit) { m with steps := m.steps + 1 }) :
    (Exec.tick limits).Ends V H m := by
  rw [Ends, Exec.tick, modify_bind, get_bind]
  by_cases hsteps : limits.steps < (m.steps + 1).toNat
  · rw [if_pos hsteps]
    exact hH
  · rw [if_neg hsteps]
    exact hV

theorem deeper (h : x.Ends (fun a m' => V a { m' with depth := m'.depth - 1 })
    (fun halt m' => H halt { m' with depth := m'.depth - 1 }) { m with depth := m.depth + 1 }) :
    (Exec.deeper x).Ends V H m := by
  rw [Ends, Exec.deeper]
  cases hx : x { m with depth := m.depth + 1 } with
  | ok a m' => exact h.of_ok hx
  | error halt m' => exact h.of_error hx

end Exec.Ends

/-- From any machine where `I` holds and any frame where `S` holds, the run ends where they still
hold, or it halts where `H` holds. -/
def Run.Keeps (I : Machine → Prop) (H : Halt → Machine → Prop) (S : Frame → Prop) (x : Run α) :
    Prop :=
  ∀ frame, S frame → ∀ m, I m → (x.run frame).Ends (fun u m' => S u.2 ∧ I m') H m

section Keeps

variable {I : Machine → Prop} {H : Halt → Machine → Prop} {S : Frame → Prop}

namespace Run.Keeps

protected theorem pure (a : α) : Run.Keeps I H S (pure a) :=
  fun _ hframe _ hm => Exec.Ends.pure ⟨hframe, hm⟩

theorem bind {x : Run α} {k : α → Run β} (h : Run.Keeps I H S x)
    (hk : ∀ a, Run.Keeps I H S (k a)) : Run.Keeps I H S (x >>= k) := by
  intro frame hframe m hm
  rw [StateT.run_bind]
  refine (h frame hframe m hm).bind ?_
  rintro ⟨a, frame'⟩ m' - ⟨hframe', hm'⟩
  exact hk a frame' hframe' m' hm'

theorem lift {x : Exec α} (h : ∀ m, I m → x.Ends (fun _ => I) H m) :
    Run.Keeps I H S (x : Run α) := by
  intro frame hframe m hm
  rw [StateT.run_monadLift, monadLift_self]
  exact (h m hm).bind fun a m' _ hm' => Exec.Ends.pure ⟨hframe, hm'⟩

theorem modify {k : Frame → Frame} (hk : ∀ frame, S frame → S (k frame)) :
    Run.Keeps I H S (modify k) :=
  fun frame hframe _ hm => Exec.Ends.pure ⟨hk frame hframe, hm⟩

end Run.Keeps

/-- What goes wrong where as many values as the first number says come to a place that takes as many
as the second. -/
inductive Misfit : Nat → Nat → RunError → Prop
  | bind {values bound : Nat} (h : values ≠ bound) : Misfit values bound (.bindCount values bound)
  | single {values : Nat} (h : values ≠ 1) : Misfit values 1 (.valueCount values)
  | discard {values : Nat} (h : values ≠ 0) : Misfit values 0 .discardedValues

theorem Misfit.ne {values bound : Nat} {e : RunError} (h : Misfit values bound e) :
    values ≠ bound := by
  cases h with
  | bind h | single h | discard h => exact h

/-- What is to be known of the steps of an execution, and of the calls and the places among the
items. -/
structure Upkeep (limits : Limits) (call : Caller) (I : Machine → Prop)
    (H : Halt → Machine → Prop) (S : Frame → Prop) (items : List Item) : Prop where
  tick {m : Machine} : I m → (Exec.tick limits).Ends (fun _ => I) H m
  stepLimit {m : Machine} : I m → H (.failed .stepLimit) m
  undefined {m : Machine} (x : Name) : I m → H (.failed (.undefinedVariable x)) m
  set {frame : Frame} (x : Name) (v : Word) : S frame → S (Frame.set x v frame)
  calls {c : Name} {arguments : List Expr} {bound : Nat} :
    ⟨.call c arguments, bound⟩ ∈ items.flatMap Item.places →
    ∀ values : List Word, values.length = arguments.length →
    ∀ m, I m → (call c values).Ends (fun _ => I) H m
  misfit {m : Machine} {values bound : Nat} {e : RunError} :
    I m → Misfit values bound e → H (.failed e) m

namespace Upkeep

variable {limits : Limits} {call : Caller} {items : List Item}

theorem mono {items' : List Item} (h : Upkeep limits call I H S items)
    (hsub : ∀ item ∈ items', item ∈ items) : Upkeep limits call I H S items' := by
  have hplaces : ∀ place ∈ items'.flatMap Item.places, place ∈ items.flatMap Item.places := by
    intro place hplace
    obtain ⟨item, hi, hmem⟩ := List.mem_flatMap.mp hplace
    exact List.mem_flatMap.mpr ⟨item, hsub item hi, hmem⟩
  exact ⟨h.tick, h.stepLimit, h.undefined, h.set, fun hplace => h.calls (hplaces _ hplace), h.misfit⟩

section Evaluate

variable {frame : Frame}

theorem read (h : Upkeep limits call I H S items) (x : Name) {m : Machine} (hm : I m) :
    (frame.read x).Ends (fun _ => I) H m := by
  rw [Frame.read]
  cases frame.get? x with
  | some v => exact Exec.Ends.pure hm
  | none => exact Exec.Ends.fail (h.undefined x hm)

theorem single (h : Upkeep limits call I H S items) (values : List Word) {m : Machine} (hm : I m) :
    (YulPruner.single values).Ends (fun _ => I) H m := by
  match values with
  | [] => exact Exec.Ends.fail (h.misfit hm (.single (by simp)))
  | [v] => exact Exec.Ends.pure hm
  | v :: v' :: values => exact Exec.Ends.fail (h.misfit hm (.single (by simp)))

mutual

theorem expr_ends (h : Upkeep limits call I H S items) (hframe : S frame) (bound : Nat) :
    ∀ e : Expr, (∀ place ∈ e.places bound, place ∈ items.flatMap Item.places) →
    ∀ m, I m → (e.evaluate call frame).Ends (fun _ => I) H m
  | .var x, _, _, hm => by
      rw [Expr.evaluate]
      exact (h.read x hm).bind fun _ _ _ hm' => Exec.Ends.pure hm'
  | .literal _, _, _, hm => Exec.Ends.pure hm
  | .call c arguments, hplaces, m, hm => by
      have harguments := h.expr_all_ends hframe arguments
        (fun place hplace => hplaces place (List.mem_cons_of_mem _ hplace)) m hm
      rw [Expr.evaluate]
      refine harguments.bind ?_
      rintro values m' - ⟨hlength, hm'⟩
      exact h.calls (hplaces _ List.mem_cons_self) values hlength m' hm'

theorem expr_all_ends (h : Upkeep limits call I H S items) (hframe : S frame) :
    ∀ es : List Expr, (∀ place ∈ Expr.placesAll es, place ∈ items.flatMap Item.places) →
    ∀ m, I m → (Expr.evaluateAll call frame es).Ends
      (fun values m' => values.length = es.length ∧ I m') H m
  | [], _, _, hm => Exec.Ends.pure ⟨rfl, hm⟩
  | e :: es, hplaces, m, hm => by
      have hfirst := h.expr_ends hframe 1 e
        (fun place hplace => hplaces place (List.mem_append_left _ hplace)) m hm
      have hrest := h.expr_all_ends hframe es
        fun place hplace => hplaces place (List.mem_append_right _ hplace)
      rw [Expr.evaluateAll]
      refine hfirst.bind fun values m₁ _ hm₁ => ?_
      refine (h.single values hm₁).bind fun v m₂ _ hm₂ => ?_
      refine (hrest m₂ hm₂).bind ?_
      rintro vs m₃ - ⟨hlength, hm₃⟩
      exact Exec.Ends.pure ⟨congrArg Nat.succ hlength, hm₃⟩

end

end Evaluate

section Statements

variable {e : Expr} {bound : Nat}

theorem evaluate (h : Upkeep limits call I H S items) (he : .value e bound ∈ items) :
    Run.Keeps I H S (Run.evaluate call e) := by
  intro frame hframe m hm
  have hplaces : ∀ place ∈ e.places bound, place ∈ items.flatMap Item.places :=
    fun place hplace => List.mem_flatMap.mpr ⟨_, he, hplace⟩
  exact (h.expr_ends hframe bound e hplaces m hm).bind fun _ _ _ hm' => Exec.Ends.pure ⟨hframe, hm'⟩

theorem evaluateSingle (h : Upkeep limits call I H S items) (he : .value e bound ∈ items) :
    Run.Keeps I H S (Run.evaluateSingle call e) :=
  (h.evaluate he).bind fun values => .lift fun _ hm => h.single values hm

theorem setAll (h : Upkeep limits call I H S items) (values : List (Name × Word)) {frame : Frame}
    (hframe : S frame) : S (frame.setAll values) := by
  induction values generalizing frame with
  | nil => exact hframe
  | cons xv values ih => exact ih (h.set xv.1 xv.2 hframe)

theorem assign (h : Upkeep limits call I H S items) (names : List Name) (values : List Word) :
    Run.Keeps I H S (Run.assign names values) := by
  rw [Run.assign]
  by_cases hlength : names.length = values.length
  · rw [if_pos hlength]
    exact .modify fun _ => h.setAll _
  · rw [if_neg hlength]
    exact .lift fun _ hm => Exec.Ends.fail (h.misfit hm (.bind (Ne.symm hlength)))

theorem discard (h : Upkeep limits call I H S items) (values : List Word) :
    Run.Keeps I H S (do
      unless values.isEmpty do
        Exec.fail .discardedValues
      return none : Run Flow) := by
  by_cases hempty : values.isEmpty = true
  · simp only [if_pos hempty]
    exact .pure none
  · have hlength : values.length ≠ 0 := fun hzero =>
      hempty (List.isEmpty_iff.mpr (List.length_eq_zero_iff.mp hzero))
    simp only [if_neg hempty]
    exact (Run.Keeps.lift fun _ hm => Exec.Ends.fail (h.misfit hm (.discard hlength))).bind
      fun _ => .pure none

theorem turns (h : Upkeep limits call I H S items) {condition : Run Word} {body post : Run Flow}
    (hcondition : Run.Keeps I H S condition) (hbody : Run.Keeps I H S body)
    (hpost : Run.Keeps I H S post) (bound : Nat) :
    Run.Keeps I H S (Run.turns limits condition body post bound) := by
  induction bound with
  | zero => exact Run.Keeps.lift fun _ hm => Exec.Ends.fail (h.stepLimit hm)
  | succ bound ih =>
      have hnext : Run.Keeps I H S (post >>= fun j =>
          if j = some Jump.leave then pure (some Jump.leave) else
            (Exec.tick limits : Run Unit) >>= fun _ =>
              Run.turns limits condition body post bound) := by
        refine hpost.bind fun j => ?_
        by_cases hj : j = some Jump.leave
        · rw [if_pos hj]
          exact Run.Keeps.pure _
        · rw [if_neg hj]
          exact (Run.Keeps.lift fun _ hm => h.tick hm).bind fun _ => ih
      rw [Run.turns]
      refine hcondition.bind fun v => ?_
      by_cases hv : v = 0
      · rw [if_pos hv]
        exact Run.Keeps.pure none
      rw [if_neg hv]
      refine hbody.bind fun flow => ?_
      cases flow with
      | none => exact hnext
      | some j =>
          cases j with
          | breakLoop => exact Run.Keeps.pure none
          | continueLoop => exact hnext
          | leave => exact Run.Keeps.pure _

mutual

theorem stmt_keeps : ∀ s : Stmt, Upkeep limits call I H S s.items →
    Run.Keeps I H S (s.run limits call)
  | .expression e, h => by
      rw [Stmt.run]
      exact (h.evaluate List.mem_cons_self).bind h.discard
  | .assignment targets value, h => by
      rw [Stmt.run]
      have he := h.evaluate (List.mem_cons_of_mem _ List.mem_cons_self)
      exact he.bind fun values => (h.assign targets values).bind fun _ => Run.Keeps.pure none
  | .declaration names (some value), h => by
      rw [Stmt.run]
      have he := h.evaluate (List.mem_cons_of_mem _ List.mem_cons_self)
      exact he.bind fun values => (h.assign names values).bind fun _ => Run.Keeps.pure none
  | .declaration _ none, h => by
      rw [Stmt.run]
      exact (Run.Keeps.modify fun _ => h.setAll _).bind fun _ => Run.Keeps.pure none
  | .function _, _ => Run.Keeps.pure none
  | .conditional condition body, h => by
      rw [Stmt.run]
      refine (h.evaluateSingle (List.mem_cons_of_mem _ List.mem_cons_self)).bind fun v => ?_
      by_cases hv : v = 0
      · rw [if_pos hv]
        exact Run.Keeps.pure none
      · rw [if_neg hv]
        exact block_keeps body (h.mono fun _ hi => by simp [Stmt.items, hi])
  | .switch scrutinee cases, h => by
      rw [Stmt.run]
      refine (h.evaluateSingle (List.mem_cons_of_mem _ List.mem_cons_self)).bind fun v => ?_
      cases Case.chosen? v cases with
      | none => exact Run.Keeps.pure none
      | some i => exact case_keeps cases i (h.mono fun _ hi => by simp [Stmt.items, hi])
  | .loop pre condition post body, h => by
      have hpre := block_keeps pre (h.mono fun _ hi => by simp [Stmt.items, hi])
      have hpost := block_keeps post (h.mono fun _ hi => by simp [Stmt.items, hi])
      have hbody := block_keeps body (h.mono fun _ hi => by simp [Stmt.items, hi])
      have hvalue : Item.value condition 1 ∈ (Stmt.loop pre condition post body).items := by
        simp [Stmt.items]
      rw [Stmt.run]
      refine hpre.bind fun flow => ?_
      cases flow with
      | some j => exact Run.Keeps.pure _
      | none => exact h.turns (h.evaluateSingle hvalue) hbody hpost _
  | .jump j, _ => Run.Keeps.pure (some j)
  | .block body, h => block_keeps body h

theorem block_keeps : ∀ b : Block, Upkeep limits call I H S (Block.items b) →
    Run.Keeps I H S (Block.run limits call b)
  | [], _ => Run.Keeps.pure none
  | s :: ss, h => by
      have hs := stmt_keeps s (h.mono fun _ hi => List.mem_append_left _ hi)
      have hss := block_keeps ss (h.mono fun _ hi => List.mem_append_right s.items hi)
      rw [Block.run]
      refine (Run.Keeps.lift fun _ hm => h.tick hm).bind fun _ => hs.bind fun flow => ?_
      cases flow with
      | some j => exact Run.Keeps.pure _
      | none => exact hss

theorem case_keeps : ∀ (cases : List Case) (i : Nat), Upkeep limits call I H S (Case.items cases) →
    Run.Keeps I H S (Case.run limits call cases i)
  | [], _, _ => Run.Keeps.pure none
  | ⟨_, body⟩ :: _, 0, h => block_keeps body (h.mono fun _ hi => List.mem_append_left _ hi)
  | ⟨_, _⟩ :: cases, i + 1, h =>
      case_keeps cases i (h.mono fun _ hi => List.mem_append_right _ hi)

end

end Statements

end Upkeep

end Keeps

end YulPruner
