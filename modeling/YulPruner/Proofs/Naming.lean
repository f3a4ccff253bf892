import YulPruner.Naming
import Mathlib.Data.List.Basic
import Mathlib.Data.List.Nodup
import Mathlib.Data.List.Perm.Subperm
import Std.Data.String.ToNat

namespace YulPruner

theorem numbered_injective (hint : Name) : Function.Injective (numbered hint) := by
  intro m n h
  have hlist : (hint ++ "_").toList ++ (toString m).toList =
      (hint ++ "_").toList ++ (toString n).toList := by
    simpa only [numbered, String.toList_append] using congrArg String.toList h
  have hdigits : toString m = toString n := String.toList_inj.mp (List.append_cancel_left hlist)
  exact Nat.repr_injective hdigits

/-- The name is the hint with a number behind it. -/
def IsNumbered (hint x : Name) : Prop := ∃ n, x = numbered hint n

namespace NameSupply

/-- More numbers are tried than names are in use, and different numbers make different names. -/
theorem find?_eq_some_number (s : NameSupply) (hint : Name) :
    ((List.range' (s.start hint) (s.used.length + 1)).find? fun n =>
      decide (numbered hint n ∉ s.used)) = some (s.number hint) := by
  have hfree : ((List.range' (s.start hint) (s.used.length + 1)).find? fun n =>
      decide (numbered hint n ∉ s.used)).isSome := by
    rw [List.find?_isSome]
    by_contra hnone
    have hsub : (List.range' (s.start hint) (s.used.length + 1)).map (numbered hint) ⊆ s.used := by
      intro x hx
      obtain ⟨n, hn, rfl⟩ := List.mem_map.mp hx
      by_contra hfresh
      exact hnone ⟨n, hn, by simpa using hfresh⟩
    have hnodup : ((List.range' (s.start hint) (s.used.length + 1)).map (numbered hint)).Nodup :=
      (List.nodup_range' ..).map (numbered_injective hint)
    have hlen := (List.subperm_of_subset hnodup hsub).length_le
    simp only [List.length_map, List.length_range'] at hlen
    omega
  obtain ⟨n, hn⟩ := Option.isSome_iff_exists.mp hfree
  rw [hn, number]
  simp only [hn, Option.getD_some]

theorem numbered_number_not_mem (s : NameSupply) (hint : Name) :
    numbered hint (s.number hint) ∉ s.used := by
  simpa using List.find?_some (s.find?_eq_some_number hint)

/-- The drawing issues names that were not in use, each once, and these are names that `P` allows
for its result. -/
def Issues {α : Type} (draw : StateM NameSupply α) (P : α → List Name → Prop) : Prop :=
  ∀ s, ∃ xs, P (draw s).1 xs ∧ xs.Nodup ∧ (∀ x ∈ xs, x ∉ s.used) ∧
    ∀ x, x ∈ (draw s).2.used ↔ x ∈ xs ∨ x ∈ s.used

variable {α β : Type}

theorem issues_fresh (hint : Name) :
    Issues (fresh hint) fun x xs => IsNumbered hint x ∧ xs = [x] := by
  intro s
  refine ⟨_, ⟨⟨_, rfl⟩, rfl⟩, List.nodup_singleton _, ?_, ?_⟩
  · intro x hx
    rw [List.mem_singleton.mp hx]
    exact s.numbered_number_not_mem hint
  · intro x
    exact List.mem_cons.trans (or_congr_left List.mem_singleton.symm)

theorem Issues.pure {P : α → List Name → Prop} {a : α} (h : P a []) :
    Issues (Pure.pure a) P :=
  fun s => ⟨[], h, List.nodup_nil, by simp, fun x => by simp; rfl⟩

theorem Issues.bind {draw : StateM NameSupply α} {next : α → StateM NameSupply β}
    {P : α → List Name → Prop} {Q : β → List Name → Prop} (h : Issues draw P)
    (hnext : ∀ a xs, P a xs → Issues (next a) fun b ys => Q b (xs ++ ys)) :
    Issues (draw >>= next) Q := by
  intro s
  obtain ⟨xs, hP, hxs, hxnew, hxused⟩ := h s
  obtain ⟨ys, hQ, hys, hynew, hyused⟩ := hnext _ _ hP (draw s).2
  refine ⟨xs ++ ys, hQ, ?_, ?_, ?_⟩
  · refine hxs.append hys fun x hx hy => hynew x hy ((hxused x).mpr (Or.inl hx))
  · intro x hx
    rcases List.mem_append.mp hx with hx | hy
    · exact hxnew x hx
    · exact fun hs => hynew x hy ((hxused x).mpr (Or.inr hs))
  · intro x
    refine (hyused x).trans ?_
    rw [hxused, List.mem_append, or_left_comm, or_assoc]

theorem Issues.mono {draw : StateM NameSupply α} {P Q : α → List Name → Prop} (h : Issues draw P)
    (hPQ : ∀ a xs, P a xs → Q a xs) : Issues draw Q := by
  intro s
  obtain ⟨xs, hP, hrest⟩ := h s
  exact ⟨xs, hPQ _ _ hP, hrest⟩

theorem Issues.mapM {R : α → β → Prop} {k : β → List Name} {draw : α → StateM NameSupply β}
    {as : List α} (h : ∀ a ∈ as, Issues (draw a) fun b xs => R a b ∧ xs = k b) :
    Issues (as.mapM draw) fun bs xs => List.Forall₂ R as bs ∧ xs = bs.flatMap k := by
  induction as with
  | nil => exact Issues.pure ⟨List.Forall₂.nil, rfl⟩
  | cons a as ih =>
      have hrest := ih fun b hb => h b (List.mem_cons_of_mem _ hb)
      rw [List.mapM_cons]
      refine (h a List.mem_cons_self).bind fun b xs hb => hrest.bind fun bs ys hbs =>
        Issues.pure ⟨.cons hb.1 hbs.1, ?_⟩
      rw [hb.2, hbs.2, List.append_nil, List.flatMap_cons]

end NameSupply

end YulPruner
