import YulPruner.Execution.Run
import YulPruner.Proofs.Basic
import Mathlib.Order.Filter.AtTopBot.Basic

namespace YulPruner

open Filter (Eventually atTop eventually_const)

inductive Side where
  | left
  | right
  | neither

def Halt.IsLimit (h : Halt) : Prop := h = .failed .stepLimit ∨ h = .failed .callDepth

variable {α β γ δ : Type}

def Exec.HitsLimit (x : Exec α) (m : Machine) : Prop := ∃ h m', x m = .error h m' ∧ h.IsLimit

inductive Alike (R : Machine → Machine → Prop) (V : α → β → Prop) :
    EStateM.Result Halt Machine α → EStateM.Result Halt Machine β → Prop
  | ok {a b m m'} (hv : V a b) (hm : R m m') : Alike R V (.ok a m) (.ok b m')
  | error {h m m'} (hm : R m m') : Alike R V (.error h m) (.error h m')

theorem Alike.eq {R : Machine → Machine → Prop} {r r' : EStateM.Result Halt Machine α}
    (h : Alike R Eq r r') (hR : ∀ m m', R m m' → m = m') : r = r' := by
  cases h with
  | ok hv hm => rw [hv, hR _ _ hm]
  | error hm => rw [hR _ _ hm]

/-- In the long run, the leader hits a limit. -/
def Escapes (lead : Side) (x : Nat → Exec α) (y : Nat → Exec β) (m m' : Machine) : Prop :=
  match lead with
  | .left => ∀ᶠ n in atTop, (x n).HitsLimit m
  | .right => ∀ᶠ n in atTop, (y n).HitsLimit m'
  | .neither => False

/-- From machines that `R` relates, the leader hits a limit, or both end alike: with values that `V`
relates or with the same halt, and in machines that `R` relates. -/
def Couples (lead : Side) (R : Machine → Machine → Prop) (V : α → β → Prop) (x : Nat → Exec α)
    (y : Nat → Exec β) : Prop :=
  ∀ m m', R m m' → Escapes lead x y m m' ∨
    ∃ r r', (∀ᶠ n in atTop, x n m = r) ∧ (∀ᶠ n in atTop, y n m' = r') ∧ Alike R V r r'

/-- In the long run, the leader has the bound `k` and the other one at least as much. Without a leader
both have the bound `k`. -/
def Outlasts (lead : Side) (b b' : Nat → Nat) (k : Nat) : Prop :=
  match lead with
  | .left => ∀ᶠ n in atTop, b n = k ∧ k ≤ b' n
  | .right => ∀ᶠ n in atTop, b' n = k ∧ k ≤ b n
  | .neither => ∀ᶠ n in atTop, b n = k ∧ b' n = k

variable {lead : Side} {R : Machine → Machine → Prop}

theorem Outlasts.le {b b' : Nat → Nat} {k : Nat} (h : Outlasts lead b b' k) :
    (∀ᶠ n in atTop, k ≤ b n) ∧ ∀ᶠ n in atTop, k ≤ b' n := by
  cases lead with
  | left => exact ⟨h.mono fun n hn => hn.1.ge, h.mono fun n hn => hn.2⟩
  | right => exact ⟨h.mono fun n hn => hn.2, h.mono fun n hn => hn.1.ge⟩
  | neither => exact ⟨h.mono fun n hn => hn.1.ge, h.mono fun n hn => hn.2.ge⟩

theorem Outlasts.pred {b b' : Nat → Nat} {k : Nat} (h : Outlasts lead b b' (k + 1)) :
    Outlasts lead (fun n => b n - 1) (fun n => b' n - 1) k := by
  cases lead with
  | left | right =>
      refine h.mono fun n hn => ⟨?_, ?_⟩
      · simp only [hn.1, Nat.add_sub_cancel]
      · exact Nat.le_sub_one_of_lt hn.2
  | neither =>
      refine h.mono fun n hn => ⟨?_, ?_⟩
      · simp only [hn.1, Nat.add_sub_cancel]
      · simp only [hn.2, Nat.add_sub_cancel]

theorem Exec.HitsLimit.bind {x : Exec α} {m : Machine} (h : x.HitsLimit m) (k : α → Exec β) :
    (x >>= k).HitsLimit m := by
  obtain ⟨h, m', hx, hh⟩ := h
  exact ⟨h, m', bind_of_error hx k, hh⟩

theorem Exec.HitsLimit.bind_ok {x : Exec α} {m m' : Machine} {a : α} (hx : x m = .ok a m')
    {k : α → Exec β} (h : (k a).HitsLimit m') : (x >>= k).HitsLimit m := by
  obtain ⟨h, m'', hk, hh⟩ := h
  exact ⟨h, m'', (bind_of_ok hx k).trans hk, hh⟩

theorem Escapes.bind {x : Nat → Exec α} {y : Nat → Exec β} {m m' : Machine}
    (h : Escapes lead x y m m') (k : Nat → α → Exec γ) (l : Nat → β → Exec δ) :
    Escapes lead (fun n => x n >>= k n) (fun n => y n >>= l n) m m' := by
  cases lead with
  | left => exact h.mono fun n hx => hx.bind (k n)
  | right => exact h.mono fun n hy => hy.bind (l n)
  | neither => exact h.elim

theorem Escapes.bind_ok {x : Nat → Exec α} {y : Nat → Exec β} {m m' w w' : Machine} {a : α} {b : β}
    (hx : ∀ᶠ n in atTop, x n m = .ok a w) (hy : ∀ᶠ n in atTop, y n m' = .ok b w')
    {k : Nat → α → Exec γ} {l : Nat → β → Exec δ}
    (h : Escapes lead (fun n => k n a) (fun n => l n b) w w') :
    Escapes lead (fun n => x n >>= k n) (fun n => y n >>= l n) m m' := by
  cases lead with
  | left => exact (hx.and h).mono fun n hn => .bind_ok hn.1 hn.2
  | right => exact (hy.and h).mono fun n hn => .bind_ok hn.1 hn.2
  | neither => exact h.elim

namespace Couples

variable {V : α → β → Prop} {W : γ → δ → Prop} {x : Nat → Exec α} {y : Nat → Exec β}

protected theorem pure {a : α} {b : β} (h : V a b) :
    Couples lead R V (fun _ => pure a) (fun _ => pure b) :=
  fun m m' hm => Or.inr ⟨.ok a m, .ok b m', Eventually.of_forall fun _ => rfl,
    Eventually.of_forall fun _ => rfl, .ok h hm⟩

protected theorem throw (h : Halt) : Couples lead R V (fun _ => throw h) (fun _ => throw h) :=
  fun m m' hm => Or.inr ⟨.error h m, .error h m', Eventually.of_forall fun _ => rfl,
    Eventually.of_forall fun _ => rfl, .error hm⟩

protected theorem fail (e : RunError) :
    Couples lead R V (fun _ => Exec.fail e) (fun _ => Exec.fail e) :=
  .throw (.failed e)

theorem bind (h : Couples lead R V x y) {k : Nat → α → Exec γ} {l : Nat → β → Exec δ}
    (hk : ∀ a b, V a b → Couples lead R W (fun n => k n a) (fun n => l n b)) :
    Couples lead R W (fun n => x n >>= k n) (fun n => y n >>= l n) := by
  intro m m' hm
  rcases h m m' hm with hescape | ⟨r, r', hx, hy, halike⟩
  · exact Or.inl (hescape.bind k l)
  · cases halike with
    | @ok a b w w' hv hw =>
        rcases hk a b hv w w' hw with hescape | ⟨s, s', hs, hs', halike⟩
        · exact Or.inl (Escapes.bind_ok hx hy hescape)
        · refine Or.inr ⟨s, s', ?_, ?_, halike⟩
          · filter_upwards [hx, hs] with n hn hsn
            rw [bind_of_ok hn, hsn]
          · filter_upwards [hy, hs'] with n hn hsn
            rw [bind_of_ok hn, hsn]
    | @error e w w' hw =>
        refine Or.inr ⟨.error e w, .error e w', ?_, ?_, .error hw⟩
        · filter_upwards [hx] with n hn
          rw [bind_of_error hn]
        · filter_upwards [hy] with n hn
          rw [bind_of_error hn]

protected theorem refl (x : Exec α) : Couples lead Eq Eq (fun _ => x) fun _ => x := by
  rintro m _ rfl
  refine Or.inr ⟨x m, x m, Eventually.of_forall fun _ => rfl, Eventually.of_forall fun _ => rfl, ?_⟩
  cases x m with
  | ok a m' => exact .ok rfl rfl
  | error h m' => exact .error rfl

theorem alike {x : Exec α} {y : Exec β} (h : Couples .neither R V (fun _ => x) fun _ => y)
    {m m' : Machine} (hm : R m m') : Alike R V (x m) (y m') := by
  rcases h m m' hm with hescape | ⟨r, r', hx, hy, halike⟩
  · exact hescape.elim
  · rwa [eventually_const.mp hx, eventually_const.mp hy]

theorem congr (h : Couples lead R V x y) {x' : Nat → Exec α} {y' : Nat → Exec β}
    (hx : ∀ m m', R m m' → ∀ᶠ n in atTop, x' n m = x n m)
    (hy : ∀ m m', R m m' → ∀ᶠ n in atTop, y' n m' = y n m') : Couples lead R V x' y' := by
  intro m m' hm
  rcases h m m' hm with hescape | ⟨r, r', hr, hr', halike⟩
  · refine Or.inl ?_
    cases lead with
    | left =>
        filter_upwards [hx m m' hm, hescape] with n hn hlimit
        rwa [Exec.HitsLimit, hn]
    | right =>
        filter_upwards [hy m m' hm, hescape] with n hn hlimit
        rwa [Exec.HitsLimit, hn]
    | neither => exact hescape.elim
  · refine Or.inr ⟨r, r', ?_, ?_, halike⟩
    · filter_upwards [hx m m' hm, hr] with n hn hrn
      rw [hn, hrn]
    · filter_upwards [hy m m' hm, hr'] with n hn hrn
      rw [hn, hrn]

end Couples

theorem Run.run_lift_bind (x : Exec α) (k : α → Run β) (frame : Frame) :
    ((x : Run α) >>= k).run frame = x >>= fun a => (k a).run frame := by
  simp only [StateT.run_bind, StateT.run_monadLift, monadLift_self, bind_assoc, pure_bind]

def RunCouples (lead : Side) (R : Machine → Machine → Prop) (A : Frame → Frame → Prop)
    (x y : Nat → Run α) : Prop :=
  ∀ frame frame', A frame frame' → Couples lead R (fun u v => u.1 = v.1 ∧ A u.2 v.2)
    (fun n => (x n).run frame) (fun n => (y n).run frame')

namespace RunCouples

variable {A : Frame → Frame → Prop} {x y : Nat → Run α}

protected theorem pure (a : α) : RunCouples lead R A (fun _ => pure a) (fun _ => pure a) :=
  fun _ _ hframe => Couples.pure ⟨rfl, hframe⟩

theorem bind (h : RunCouples lead R A x y) {k l : Nat → α → Run β}
    (hk : ∀ a, RunCouples lead R A (fun n => k n a) (fun n => l n a)) :
    RunCouples lead R A (fun n => x n >>= k n) (fun n => y n >>= l n) := by
  intro frame frame' hframe
  simp only [StateT.run_bind]
  refine (h frame frame' hframe).bind ?_
  rintro ⟨a, g⟩ ⟨b, g'⟩ ⟨rfl, hg⟩
  exact hk a g g' hg

theorem lift {x y : Nat → Exec α} (h : Couples lead R Eq x y) :
    RunCouples lead R A (fun n => (x n : Run α)) (fun n => (y n : Run α)) := by
  intro frame frame' hframe
  simp only [StateT.run_monadLift, monadLift_self]
  refine h.bind ?_
  rintro a _ rfl
  exact Couples.pure ⟨rfl, hframe⟩

protected theorem fail (e : RunError) :
    RunCouples lead R A (fun _ => (Exec.fail e : Exec α)) (fun _ => (Exec.fail e : Exec α)) :=
  lift (.fail e)

theorem congr (h : RunCouples lead R A x y) {x' y' : Nat → Run α}
    (hx : ∀ᶠ n in atTop, x' n = x n) (hy : ∀ᶠ n in atTop, y' n = y n) :
    RunCouples lead R A x' y' := by
  intro frame frame' hframe
  refine (h frame frame' hframe).congr (fun m _ _ => ?_) fun _ m' _ => ?_
  · exact hx.mono fun n hn => by rw [hn]
  · exact hy.mono fun n hn => by rw [hn]

theorem modify {k : Frame → Frame} (hk : ∀ frame frame', A frame frame' → A (k frame) (k frame')) :
    RunCouples lead R A (fun _ => modify k) (fun _ => modify k) :=
  fun _ _ hframe => Couples.pure ⟨rfl, hk _ _ hframe⟩

end RunCouples

end YulPruner
