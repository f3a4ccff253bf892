import YulPruner.Proofs.Execution.Shim

namespace YulPruner

open Filter (Eventually atTop eventually_ge_atTop)

/-- Machines that look the same from outside, with the given depths. -/
structure Linked (pace : Count → Count → Prop) (d d' : Nat) (m m' : Machine) : Prop where
  events : m.events = m'.events
  storage : m.storage = m'.storage
  depth : m.depth = d
  depth' : m'.depth = d'
  steps : pace m.steps m'.steps

structure Lockstep (lead : Side) (limits limits' : Nat → Limits) (D D' : Nat)
    (pace : Count → Count → Prop) (reach : Nat → Nat → Prop) : Prop where
  depth (n : Nat) : (limits n).depth = D
  depth' (n : Nat) : (limits' n).depth = D'
  steps {s s' : Count} : pace s s' →
    (lead = .left ∧ ∀ᶠ n in atTop, ¬ (limits n).Allows s) ∨
    (lead = .right ∧ ∀ᶠ n in atTop, ¬ (limits' n).Allows s') ∨
    (pace (s + 1) (s' + 1) ∧ ∀ᶠ n in atTop, (limits n).Allows s ∧ (limits' n).Allows s')
  turns : ∃ k, Outlasts lead (fun n => (limits n).steps + 1) (fun n => (limits' n).steps + 1) k
  reach_call {d d' : Nat} : reach d d' → reach (d + 1) (d' + 1)
  room {d d' : Nat} : reach d d' →
    (lead = .left ∧ D ≤ d) ∨ (lead = .right ∧ D' ≤ d') ∨ (d < D ∧ d' < D')

/-- Limits of two executions of which the right one may take more steps and nest calls deeper: one
step more in every shim, and one level more in every call of a shim. -/
structure Regime (lead : Side) (limits limits' : Nat → Limits) (D D' : Nat)
    (pace : Count → Count → Prop) (reach : Nat → Nat → Prop) : Prop
    extends Lockstep lead limits limits' D D' pace reach where
  steps_shim {s s' : Count} : pace s s' →
    (lead = .right ∧ ∀ᶠ n in atTop, ¬ (limits' n).Allows s') ∨
    (pace s (s' + 1) ∧ ∀ᶠ n in atTop, (limits' n).Allows s')
  reach_shim {d d' : Nat} : reach d d' → reach (d + 1) (d' + 2)
  room_shim {d d' : Nat} : reach d d' → d < D → (lead = .right ∧ D' ≤ d' + 1) ∨ d' + 1 < D'

/-- As far as the limit can be attained, the right execution is ahead and within it. -/
def Limits.Behind (limits : Limits) (s s' : Count) : Prop :=
  limits.Attainable → s.toNat ≤ s'.toNat ∧ s'.toNat ≤ limits.steps

theorem Limits.Behind.allows {limits : Limits} {s s' : Count} (h : limits.Behind s s')
    (hallows : limits.Allows s') :
    limits.Behind (s + 1) (s' + 1) ∧ limits.Behind s (s' + 1) ∧ limits.Allows s := by
  by_cases hlimit : limits.Attainable
  · obtain ⟨hle, hwithin⟩ := h hlimit
    have hs := hlimit.toNat_add_one (hle.trans hwithin)
    have hs' := hlimit.toNat_add_one hwithin
    rw [Allows] at hallows ⊢
    refine ⟨fun _ => ⟨?_, hallows⟩, fun _ => ⟨?_, hallows⟩, ?_⟩ <;> omega
  · exact ⟨fun h => absurd h hlimit, fun h => absurd h hlimit, allows_of_not_attainable hlimit s⟩

/-- Under equal limits, the right execution is the first to reach one. -/
theorem Regime.same (limits : Limits) : Regime .right (fun _ => limits) (fun _ => limits)
    limits.depth limits.depth limits.Behind (· ≤ ·) where
  depth _ := rfl
  depth' _ := rfl
  steps {s s'} hs := by
    by_cases h : limits.Allows s'
    · obtain ⟨hnext, -, hallows⟩ := hs.allows h
      exact Or.inr (Or.inr ⟨hnext, Eventually.of_forall fun _ => ⟨hallows, h⟩⟩)
    · exact Or.inr (Or.inl ⟨rfl, Eventually.of_forall fun _ => h⟩)
  steps_shim {s s'} hs := by
    by_cases h : limits.Allows s'
    · exact Or.inr ⟨(hs.allows h).2.1, Eventually.of_forall fun _ => h⟩
    · exact Or.inl ⟨rfl, Eventually.of_forall fun _ => h⟩
  turns := ⟨limits.steps + 1, Eventually.of_forall fun _ => ⟨rfl, Nat.le_refl _⟩⟩
  reach_call := Nat.succ_le_succ
  reach_shim hd := by omega
  room {d d'} hd := by
    rcases Nat.lt_or_ge d' limits.depth with h | h
    · exact Or.inr (Or.inr ⟨Nat.lt_of_le_of_lt hd h, h⟩)
    · exact Or.inr (Or.inl ⟨rfl, h⟩)
  room_shim {d d'} _ _ := by
    rcases Nat.lt_or_ge (d' + 1) limits.depth with h | h
    · exact Or.inr h
    · exact Or.inl ⟨rfl, h⟩

theorem eventually_allows {depth : Nat} (s : Count) : ∀ᶠ n in atTop, Limits.Allows ⟨n, depth⟩ s :=
  (eventually_ge_atTop _).mono fun _ hn => hn

/-- With twice the depth, and as many steps as it takes, the right execution reaches no limit before
the left one does. -/
theorem Regime.raised (limits : Limits) : Regime .left (fun _ => limits)
    (fun n => ⟨n, 2 * limits.depth⟩) limits.depth (2 * limits.depth) (fun _ _ => True)
    (fun d d' => d' ≤ 2 * d) where
  depth _ := rfl
  depth' _ := rfl
  steps {s s'} _ := by
    by_cases h : limits.Allows s
    · exact Or.inr (Or.inr ⟨trivial, (eventually_allows s').mono fun n hn => ⟨h, hn⟩⟩)
    · exact Or.inl ⟨rfl, Eventually.of_forall fun _ => h⟩
  steps_shim {s s'} _ := Or.inr ⟨trivial, eventually_allows s'⟩
  turns := ⟨limits.steps + 1, (eventually_ge_atTop limits.steps).mono fun n hn =>
    ⟨rfl, Nat.succ_le_succ hn⟩⟩
  reach_call hd := by omega
  reach_shim hd := by omega
  room {d d'} hd := by
    rcases Nat.lt_or_ge d limits.depth with h | h
    · exact Or.inr (Or.inr ⟨h, by omega⟩)
    · exact Or.inl ⟨rfl, h⟩
  room_shim {d d'} hd h := Or.inr (by omega)

/-- `R'` relates what machines that `R` relates become one call deeper. -/
structure Deepens (R R' : Machine → Machine → Prop) : Prop where
  down {m m' : Machine} : R m m' → R' m.down m'.down
  leave {m m' : Machine} : R' m m' → R m.leave m'.leave

theorem deepens_linked (pace : Count → Count → Prop) (d d' : Nat) :
    Deepens (Linked pace d d') (Linked pace (d + 1) (d' + 1)) where
  down hm := ⟨hm.events, hm.storage, congrArg _ hm.depth, congrArg _ hm.depth', hm.steps⟩
  leave hm := ⟨hm.events, hm.storage, by simp [Machine.leave, hm.depth],
    by simp [Machine.leave, hm.depth'], hm.steps⟩

theorem deepens_eq : Deepens Eq Eq where
  down := congrArg _
  leave := congrArg _

namespace Couples

variable {lead : Side} {R : Machine → Machine → Prop} {α β : Type} {V : α → β → Prop}
  {x : Nat → Exec α} {y : Nat → Exec β}

theorem of_left (hlead : lead = .left)
    (hx : ∀ m m', R m m' → ∀ᶠ n in atTop, (x n).HitsLimit m) : Couples lead R V x y := by
  subst hlead
  exact fun m m' hm => Or.inl (hx m m' hm)

theorem of_right (hlead : lead = .right)
    (hy : ∀ m m', R m m' → ∀ᶠ n in atTop, (y n).HitsLimit m') : Couples lead R V x y := by
  subst hlead
  exact fun m m' hm => Or.inl (hy m m' hm)

theorem modify {k : Machine → Machine} (hk : ∀ m m', R m m' → R (k m) (k m')) :
    Couples lead R Eq (fun _ => (modify k : Exec Unit)) fun _ => (modify k : Exec Unit) :=
  fun m m' hm => Or.inr ⟨.ok () (k m), .ok () (k m'), Eventually.of_forall fun _ => rfl,
    Eventually.of_forall fun _ => rfl, .ok rfl (hk m m' hm)⟩

theorem get_bind {k : Machine → α} (hk : ∀ m m', R m m' → k m = k m') :
    Couples lead R Eq (fun _ => (get >>= fun m => pure (k m) : Exec α))
      fun _ => (get >>= fun m => pure (k m) : Exec α) :=
  fun m m' hm => Or.inr ⟨.ok (k m) m, .ok (k m') m', Eventually.of_forall fun _ => rfl,
    Eventually.of_forall fun _ => rfl, .ok (hk m m' hm) hm⟩

theorem deeper {R' : Machine → Machine → Prop} (hR : Deepens R R') (h : Couples lead R' V x y) :
    Couples lead R V (fun n => Exec.deeper (x n)) fun n => Exec.deeper (y n) := by
  intro m m' hm
  rcases h _ _ (hR.down hm) with hescape | ⟨r, r', hx, hy, halike⟩
  · refine Or.inl ?_
    cases lead with
    | left | right =>
        refine Eventually.mono hescape ?_
        rintro n ⟨e, w, hn, he⟩
        exact ⟨e, _, Exec.deeper_of_error hn, he⟩
    | neither => exact hescape.elim
  · cases halike with
    | ok hv hw =>
        exact Or.inr ⟨_, _, hx.mono fun n hn => Exec.deeper_of_ok hn,
          hy.mono fun n hn => Exec.deeper_of_ok hn, .ok hv (hR.leave hw)⟩
    | error hw =>
        exact Or.inr ⟨_, _, hx.mono fun n hn => Exec.deeper_of_error hn,
          hy.mono fun n hn => Exec.deeper_of_error hn, .error (hR.leave hw)⟩

end Couples

section Steps

variable {lead : Side} {limits limits' : Nat → Limits} {D D' : Nat} {pace : Count → Count → Prop}
  {reach : Nat → Nat → Prop} {d d' : Nat}

namespace Lockstep

variable (h : Lockstep lead limits limits' D D' pace reach)

include h

theorem tick_couples : Couples lead (Linked pace d d') Eq (fun n => Exec.tick (limits n))
    fun n => Exec.tick (limits' n) := by
  intro m m' hm
  rcases h.steps hm.steps with ⟨rfl, hspent⟩ | ⟨rfl, hspent⟩ | ⟨hpace, hfree⟩
  · exact Or.inl (hspent.mono fun n hn => ⟨_, _, Exec.tick_of_not_allows hn, Or.inl rfl⟩)
  · exact Or.inl (hspent.mono fun n hn => ⟨_, _, Exec.tick_of_not_allows hn, Or.inl rfl⟩)
  · refine Or.inr ⟨_, _, hfree.mono fun n hn => Exec.tick_of_allows hn.1,
      hfree.mono fun n hn => Exec.tick_of_allows hn.2, .ok rfl ?_⟩
    exact ⟨hm.events, hm.storage, hm.depth, hm.depth', hpace⟩

theorem inStep : InStep lead (Linked pace d d') limits limits' :=
  ⟨h.tick_couples, h.turns⟩

end Lockstep

theorem Regime.tick_right (h : Regime lead limits limits' D D' pace reach) {α β : Type}
    {V : α → β → Prop} {x : Nat → Exec α} {y : Nat → Exec β}
    (hxy : Couples lead (Linked pace d d') V x y) :
    Couples lead (Linked pace d d') V x fun n => Exec.tick (limits' n) >>= fun _ => y n := by
  intro m m' hm
  rcases h.steps_shim hm.steps with ⟨rfl, hspent⟩ | ⟨hpace, hfree⟩
  · refine Or.inl (hspent.mono fun n hn => ?_)
    exact Exec.HitsLimit.bind ⟨_, _, Exec.tick_of_not_allows hn, Or.inl rfl⟩ _
  · have hnext : Linked pace d d' m { m' with steps := m'.steps + 1 } :=
      ⟨hm.events, hm.storage, hm.depth, hm.depth', hpace⟩
    rcases hxy _ _ hnext with hescape | ⟨r, r', hx, hy, halike⟩
    · refine Or.inl ?_
      cases lead with
      | left => exact hescape
      | right =>
          exact (hfree.and hescape).mono fun n hn => .bind_ok (Exec.tick_of_allows hn.1) hn.2
      | neither => exact hescape.elim
    · refine Or.inr ⟨r, r', hx, ?_, halike⟩
      filter_upwards [hfree, hy] with n hn hyn
      rw [bind_of_ok (Exec.tick_of_allows hn), hyn]

end Steps

theorem emit_couples {lead : Side} {pace : Count → Count → Prop} {d d' : Nat} (e : Event) :
    Couples lead (Linked pace d d') Eq (fun _ => Exec.emit e) fun _ => Exec.emit e :=
  .modify fun _ _ hm => ⟨by simp only [hm.events], hm.storage, hm.depth, hm.depth', hm.steps⟩

theorem builtin_couples {lead : Side} {pace : Count → Count → Prop} {d d' : Nat} {b : Builtin}
    {arguments : List Word} {act : Exec (List Word)} (h : b.act? arguments = some act) :
    Couples lead (Linked pace d d') Eq (fun _ => act) fun _ => act := by
  unfold Builtin.act? at h
  split at h
  all_goals try (cases h; exact .pure rfl)
  · cases h
    exact .get_bind fun m m' hm => by rw [hm.storage]
  · cases h
    refine (Couples.modify fun m m' hm => ?_).bind fun _ _ _ =>
      (emit_couples _).bind fun _ _ _ => .pure rfl
    exact ⟨hm.events, by simp only [hm.storage], hm.depth, hm.depth', hm.steps⟩
  · cases h
    exact (emit_couples _).bind fun _ _ _ => .pure rfl
  · cases h
    exact (emit_couples _).bind fun _ _ _ => .throw _
  · cases h

theorem callBuiltin_couples {lead : Side} {pace : Count → Count → Prop} {d d' : Nat} (c : Name)
    (arguments : List Word) : Couples lead (Linked pace d d') Eq
      (fun _ => callBuiltin c arguments) fun _ => callBuiltin c arguments := by
  rw [callBuiltin]
  cases h : (Builtin.table.lookup c).bind (·.act? arguments) with
  | none => exact .fail _
  | some act =>
      obtain ⟨b, -, hb⟩ := Option.bind_eq_some_iff.mp h
      exact builtin_couples hb

end YulPruner
