import Mathlib.Data.List.Basic
import Mathlib.Data.List.Forall2

namespace YulPruner

section Lists

variable {α β κ : Type}

theorem takeWhile_append_of_head? {p : α → Bool} {as bs : List α} (has : ∀ a ∈ as, p a = true)
    (hbs : ∀ b ∈ bs.head?, p b = false) : (as ++ bs).takeWhile p = as := by
  rw [List.takeWhile_append_of_pos has]
  cases bs with
  | nil => rw [List.takeWhile_nil, List.append_nil]
  | cons b bs => rw [List.takeWhile_cons_of_neg (by simp [hbs b rfl]), List.append_nil]

theorem head?_dropWhile (p : α → Bool) (as : List α) :
    ∀ a ∈ (as.dropWhile p).head?, p a = false := by
  intro a ha
  have h := as.head?_dropWhile_not p
  rwa [ha] at h

theorem find?_key_of_mem [BEq κ] [LawfulBEq κ] (key : α → κ) {as : List α}
    (hnodup : (as.map key).Nodup) {a : α} (ha : a ∈ as) : as.find? (key · == key a) = some a := by
  induction as with
  | nil => cases ha
  | cons b as ih =>
      rw [List.map_cons, List.nodup_cons] at hnodup
      rcases List.mem_cons.mp ha with rfl | hmem
      · exact List.find?_cons_of_pos (by simp)
      · have hne : key b ≠ key a := fun hkey => hnodup.1 (hkey ▸ List.mem_map_of_mem hmem)
        rw [List.find?_cons_of_neg (by simpa using hne)]
        exact ih hnodup.2 hmem

theorem findSome?_filter_of_eq_none {k : α → Option β} {q : α → Bool} {as : List α}
    (hk : ∀ a ∈ as, ¬ q a → k a = none) : (as.filter q).findSome? k = as.findSome? k := by
  rw [← List.head?_filterMap, List.filterMap_filter, ← List.head?_filterMap]
  refine congrArg List.head? (List.filterMap_congr fun a ha => ?_)
  by_cases hq : q a
  · rw [if_pos hq]
  · rw [if_neg hq, hk a ha hq]

theorem mem_zipIdx_iff_append {as : List α} {a : α} {i : Nat} :
    (a, i) ∈ as.zipIdx ↔ ∃ before after, as = before ++ a :: after ∧ before.length = i := by
  rw [List.mk_mem_zipIdx_iff_getElem?]
  constructor
  · intro h
    obtain ⟨hi, rfl⟩ := List.getElem?_eq_some_iff.mp h
    refine ⟨as.take i, as.drop (i + 1), ?_, List.length_take_of_le (Nat.le_of_lt hi)⟩
    rw [List.getElem_cons_drop, List.take_append_drop]
  · rintro ⟨before, after, rfl, rfl⟩
    simp

theorem exists_of_mem_right {R : α → β → Prop} {as : List α} {bs : List β}
    (h : List.Forall₂ R as bs) {b : β} (hb : b ∈ bs) : ∃ a ∈ as, R a b := by
  induction h with
  | nil => cases hb
  | @cons a b' as bs hab _ ih =>
      rcases List.mem_cons.mp hb with rfl | hb
      · exact ⟨a, List.mem_cons_self, hab⟩
      · obtain ⟨c, hc, hcb⟩ := ih hb
        exact ⟨c, List.mem_cons_of_mem a hc, hcb⟩

end Lists

section Computations

variable {ε σ α β : Type} {x : EStateM ε σ α} {s t : σ}

theorem bind_of_ok {a : α} (h : x s = .ok a t) (k : α → EStateM ε σ β) : (x >>= k) s = k a t := by
  simp only [bind, EStateM.bind, h]

theorem bind_of_error {e : ε} (h : x s = .error e t) (k : α → EStateM ε σ β) :
    (x >>= k) s = .error e t := by
  simp only [bind, EStateM.bind, h]

theorem bind_eq_ok {k : α → EStateM ε σ β} {b : β} {u : σ} :
    (x >>= k) s = .ok b u ↔ ∃ a t, x s = .ok a t ∧ k a t = .ok b u := by
  constructor
  · intro h
    cases hx : x s with
    | ok a t => exact ⟨a, t, rfl, (bind_of_ok hx k).symm.trans h⟩
    | error e t => cases (bind_of_error hx k).symm.trans h
  · rintro ⟨a, t, hx, hk⟩
    rw [bind_of_ok hx, hk]

theorem get_bind (k : σ → EStateM ε σ β) (s : σ) : (get >>= k) s = k s s := rfl

theorem modify_bind (change : σ → σ) (k : PUnit → EStateM ε σ β) (s : σ) :
    (modify change >>= k) s = k ⟨⟩ (change s) := rfl

end Computations

end YulPruner
