import YulPruner.Proofs.Execution.Invariant
import Mathlib.Data.List.Induction

namespace YulPruner

/-- The storage behind an event. -/
def Event.applyTo (storage : Storage) : Event → Storage
  | .store slot value => storage.insert slot value
  | .log _ | .revert _ _ => storage

/-- The storage behind all of the events, the first of which finds it empty. -/
def replay (events : List Event) : Storage := events.foldl Event.applyTo ∅

def Event.isRevert : Event → Bool
  | .revert _ _ => true
  | .store _ _ | .log _ => false

def Event.stored? (slot : Word) : Event → Option Word
  | .store s value => if s = slot then some value else none
  | .log _ | .revert _ _ => none

theorem replay_concat (events : List Event) (e : Event) :
    replay (events ++ [e]) = e.applyTo (replay events) := by
  rw [replay, List.foldl_append, List.foldl_cons, List.foldl_nil, replay]

theorem Event.getElem?_applyTo (e : Event) (storage : Storage) (slot : Word) :
    (e.applyTo storage)[slot]? = (e.stored? slot).or storage[slot]? := by
  cases e with
  | store s value =>
      rw [applyTo, Std.TreeMap.getElem?_insert, stored?]
      by_cases hs : s = slot
      · rw [if_pos (Std.LawfulEqCmp.compare_eq_iff_eq.mpr hs), if_pos hs, Option.some_or]
      · rw [if_neg (mt Std.LawfulEqCmp.compare_eq_iff_eq.mp hs), if_neg hs, Option.none_or]
  | log | revert => rfl

/-- A slot holds what was stored in it last. -/
theorem getElem?_replay (events : List Event) (slot : Word) :
    (replay events)[slot]? = events.reverse.findSome? (·.stored? slot) := by
  induction events using List.reverseRecOn with
  | nil => rfl
  | append_singleton events e ih =>
      rw [replay_concat, Event.getElem?_applyTo, ih, List.reverse_concat, List.findSome?_cons]
      cases e.stored? slot <;> rfl

/-- The storage is what the events make of an empty one, and none of them is a revert. -/
structure Machine.Accounted (m : Machine) : Prop where
  storage : m.storage = replay m.events.toList
  no_revert : ∀ e ∈ m.events.toList, e.isRevert = false

structure Machine.Reverted (m : Machine) : Prop where
  storage : m.storage = replay m.events.toList
  last : ∃ events offset size, m.events.toList = events ++ [.revert offset size] ∧
    ∀ e ∈ events, e.isRevert = false

namespace Machine.Accounted

theorem start : Machine.start.Accounted := ⟨rfl, nofun⟩

variable {m : Machine} (h : m.Accounted)

include h

theorem emit {e : Event} (he : e.isRevert = false) :
    Accounted { m with storage := e.applyTo m.storage, events := m.events.push e } where
  storage := by rw [Array.toList_push, replay_concat, h.storage]
  no_revert := by
    intro event hevent
    rw [Array.toList_push] at hevent
    rcases List.mem_append.mp hevent with hevent | hevent
    · exact h.no_revert event hevent
    · rwa [List.mem_singleton.mp hevent]

theorem revert (offset size : Word) :
    Reverted { m with events := m.events.push (.revert offset size) } where
  storage := by rw [Array.toList_push, replay_concat, ← h.storage]; rfl
  last := ⟨m.events.toList, offset, size, Array.toList_push, h.no_revert⟩

theorem act?_ends {b : Builtin} {arguments : List Word} {act : Exec (List Word)}
    (hact : b.act? arguments = some act) :
    act.Ends (fun _ m' => m'.Accounted) (fun halt m' => halt = .reverted ∧ m'.Reverted) m := by
  unfold Builtin.act? at hact
  split at hact <;> cases hact
  case h_14 slot value =>
    have hstore : Event.isRevert (.store slot value) = false := rfl
    exact h.emit hstore
  case h_15 values =>
    have hlog : Event.isRevert (.log values) = false := rfl
    exact h.emit hlog
  case h_16 offset size => exact ⟨rfl, h.revert offset size⟩
  -- The others leave the machine as it is.
  all_goals exact h

end Machine.Accounted

theorem invariant_accounted (limits : Limits) (functions : List Function) :
    Invariant limits functions Machine.Accounted
      (fun halt m => halt = .reverted → m.Reverted) where
  count _ _ h := ⟨h.storage, h.no_revert⟩
  halt_depth _ h hhalt := ⟨(h hhalt).storage, (h hhalt).last⟩
  builtin c arguments m h := by
    refine callBuiltin_ends (fun b act hact => ?_) nofun
    exact (h.act?_ends hact).mono (fun _ _ _ hend => hend) fun _ _ hhalt _ => hhalt.2
  fails _ _ := nofun
  jumps _ _ _ _ := nofun

theorem Machine.Reverted.eq_last {m : Machine} (h : m.Reverted) {i : Nat} {e : Event}
    (hi : m.events.toList[i]? = some e) (he : e.isRevert = true) :
    i + 1 = m.events.toList.length := by
  obtain ⟨events, offset, size, hevents, hbefore⟩ := h.last
  rw [hevents] at hi ⊢
  have hlength : i < (events ++ [Event.revert offset size]).length :=
    (List.getElem?_eq_some_iff.mp hi).1
  have hbehind : ¬ i < events.length := by
    intro hlt
    rw [List.getElem?_append_left hlt] at hi
    rw [hbefore e (List.mem_of_getElem? hi)] at he
    cases he
  rw [List.length_append, List.length_singleton] at hlength ⊢
  omega

namespace Program

theorem run_eq_ok {p : Program} {limits : Limits} {e : Execution} (h : p.run limits = .ok e) :
    (∃ m : Machine, m.Accounted ∧ e = m.execution false) ∨
      ∃ m : Machine, m.Reverted ∧ e = m.execution true := by
  have hroot := runRoot_ends (invariant_accounted limits (Block.definitions p.root)) .start
  rcases run_ok_cases h with ⟨frame, m, hrun, he⟩ | ⟨m, hrun, he⟩
  · exact Or.inl ⟨m, hroot.of_ok hrun, he⟩
  · exact Or.inr ⟨m, hroot.of_error hrun rfl, he⟩

/-- The events of a completed run, the storage that it leaves and its being reverted tell one story:
the storage is what the events make of an empty one, so each slot holds what was stored in it last;
a revert is the last event; and there is one if and only if the run was reverted. -/
theorem run_accounts {p : Program} {limits : Limits} {e : Execution} (h : p.run limits = .ok e) :
    e.storage = replay e.events ∧
      (∀ slot, e.storage[slot]? = e.events.reverse.findSome? (·.stored? slot)) ∧
      (∀ i event, e.events[i]? = some event → event.isRevert = true → i + 1 = e.events.length) ∧
      (e.reverted = true ↔ ∃ event, e.events.getLast? = some event ∧ event.isRevert = true) := by
  have hstorage : e.storage = replay e.events := by
    rcases run_eq_ok h with ⟨m, hm, rfl⟩ | ⟨m, hm, rfl⟩ <;> exact hm.storage
  refine ⟨hstorage, fun slot => by rw [hstorage, getElem?_replay], ?_⟩
  rcases run_eq_ok h with ⟨m, hm, rfl⟩ | ⟨m, hm, rfl⟩
  · constructor
    · intro i event hi hevent
      rw [hm.no_revert event (List.mem_of_getElem? hi)] at hevent
      cases hevent
    · refine iff_of_false nofun ?_
      rintro ⟨event, hlast, hevent⟩
      rw [hm.no_revert event (List.mem_of_getLast? hlast)] at hevent
      cases hevent
  · refine ⟨fun _ _ => hm.eq_last, ?_⟩
    obtain ⟨events, offset, size, hevents, -⟩ := hm.last
    refine iff_of_true rfl ⟨.revert offset size, ?_, rfl⟩
    rw [Machine.execution, hevents, List.getLast?_concat]

/-- A slot that is written twice, the second time with zero, and a revert among the arguments of a
call. -/
def refund : Program where
  root := [.function ⟨"f", ["a"], ["r"],
      [.expression (.call "sstore" [.literal (.number 1), .literal (.number 0)]),
        .expression (.call "revert" [.var "a", .literal (.number 0)])]⟩,
    .expression (.call "sstore" [.literal (.number 1), .literal (.number 5)]),
    .expression (.call "log" [.call "f" [.literal (.number 2)]]),
    .expression (.call "sstore" [.literal (.number 2), .literal (.number 2)])]

theorem run_accounts_refund : ∃ e, refund.run {} = .ok e ∧
    e.events = [.store 1 5, .store 1 0, .revert 2 0] ∧ e.reverted = true ∧
    e.storage = replay [.store 1 5, .store 1 0, .revert 2 0] ∧ e.storage[(1 : Word)]? = some 0 ∧
    e.storage[(2 : Word)]? = none := by
  obtain ⟨e, hrun, hevents⟩ : ∃ e, refund.run {} = .ok e ∧
      e.events = [.store 1 5, .store 1 0, .revert 2 0] := ⟨_, rfl, rfl⟩
  obtain ⟨hstorage, hslots, -, hreverted⟩ := run_accounts hrun
  rw [hevents] at hstorage hslots hreverted
  exact ⟨e, hrun, hevents, hreverted.mpr ⟨_, rfl, rfl⟩, hstorage, hslots 1, hslots 2⟩

end Program

end YulPruner
