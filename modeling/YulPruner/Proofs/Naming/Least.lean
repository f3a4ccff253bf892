import YulPruner.Proofs.Naming
import Mathlib.Order.Bounds.Basic

namespace YulPruner

theorem underscore_not_mem_toString (n : Nat) : '_' ∉ (toString n).toList := by
  intro h
  rw [Nat.toString_eq_repr, Nat.toList_repr] at h
  have hdigit := Nat.isDigit_of_mem_toDigits (by decide) (by decide) h
  exact absurd hdigit (by decide)

theorem numbered_inj {hint hint' : Name} {m n : Nat} (h : numbered hint m = numbered hint' n) :
    hint = hint' ∧ m = n := by
  have hlist : hint.toList ++ '_' :: (toString m).toList =
      hint'.toList ++ '_' :: (toString n).toList := by
    simpa [numbered] using congrArg String.toList h
  -- The number stands behind the last underscore, whatever underscores there are in the hint.
  have hhint : hint.toList = hint'.toList := by
    rcases List.append_eq_append_iff.mp hlist with ⟨as, has, hrest⟩ | ⟨as, has, hrest⟩
    · cases as with
      | nil => rw [has, List.append_nil]
      | cons a as =>
          obtain ⟨-, hdigits⟩ := List.cons.inj hrest
          exact absurd (hdigits ▸ List.mem_append_right as List.mem_cons_self)
            (underscore_not_mem_toString m)
    · cases as with
      | nil => rw [has, List.append_nil]
      | cons a as =>
          obtain ⟨-, hdigits⟩ := List.cons.inj hrest
          exact absurd (hdigits ▸ List.mem_append_right as List.mem_cons_self)
            (underscore_not_mem_toString n)
  obtain rfl := String.toList_inj.mp hhint
  exact ⟨rfl, numbered_injective hint h⟩

namespace NameSupply

def freeNumbers (names : List Name) (hint : Name) : Set Nat :=
  {n | 1 ≤ n ∧ numbered hint n ∉ names}

/-- The search for a number never begins behind a number that is free. -/
structure Tight (s : NameSupply) : Prop where
  start_pos (hint : Name) : 1 ≤ s.start hint
  mem_used {hint : Name} {n : Nat} : 1 ≤ n → n < s.start hint → numbered hint n ∈ s.used

theorem Tight.isLeast_number {s : NameSupply} (h : s.Tight) (hint : Name) :
    IsLeast (freeNumbers s.used hint) (s.number hint) := by
  obtain ⟨-, hmem, hleast⟩ := List.find?_range'_eq_some.mp (s.find?_eq_some_number hint)
  obtain ⟨hstart, -⟩ := List.mem_range'_1.mp hmem
  refine ⟨⟨(h.start_pos hint).trans hstart, s.numbered_number_not_mem hint⟩, ?_⟩
  rintro n ⟨hn, hfree⟩
  by_contra hlt
  rw [Nat.not_le] at hlt
  by_cases hbefore : n < s.start hint
  · exact hfree (h.mem_used hn hbefore)
  · have hused := hleast n (Nat.not_lt.mp hbefore) hlt
    simp only [Bool.not_eq_true', decide_eq_false_iff_not, not_not] at hused
    exact hfree hused

theorem tight_ofNames (names : List Name) : (ofNames names).Tight :=
  ⟨fun _ => Nat.le_refl 1, fun hpos hlt => absurd (Nat.lt_of_lt_of_le hlt hpos) (Nat.lt_irrefl _)⟩

theorem Tight.fresh {s : NameSupply} (h : s.Tight) (hint : Name) : (fresh hint s).2.Tight := by
  have hstart (x : Name) : (NameSupply.fresh hint s).2.start x =
      if x = hint then s.number hint + 1 else s.start x := by
    rw [NameSupply.fresh, start, List.lookup_cons]
    by_cases hx : x = hint
    · rw [if_pos hx, beq_iff_eq.mpr hx]
      rfl
    · rw [if_neg hx, beq_false_of_ne hx]
      rfl
  have hold {x : Name} (hx : x ∈ s.used) : x ∈ (NameSupply.fresh hint s).2.used :=
    List.mem_cons_of_mem _ hx
  refine ⟨fun x => ?_, fun {x n} hpos hlt => ?_⟩
  · rw [hstart]
    split
    · exact Nat.le_add_left 1 _
    · exact h.start_pos x
  · rw [hstart] at hlt
    by_cases hx : x = hint
    · -- Below the number drawn, all numbers make names in use.
      rw [if_pos hx] at hlt
      rw [hx]
      rcases Nat.lt_succ_iff_lt_or_eq.mp hlt with hless | rfl
      · by_contra hfree
        have hleast := (h.isLeast_number hint).2 ⟨hpos, fun hmem => hfree (hold hmem)⟩
        exact absurd hleast (Nat.not_le.mpr hless)
      · exact List.mem_cons_self
    · rw [if_neg hx] at hlt
      exact hold (h.mem_used hpos hlt)

/-- The name that is drawn for the hint when only `names` are in use. -/
def firstFresh (names : List Name) (hint : Name) : Name := (fresh hint (ofNames names)).1

theorem isLeast_firstFresh (names : List Name) (hint : Name) :
    ∃ n, IsLeast (freeNumbers names hint) n ∧ firstFresh names hint = numbered hint n :=
  ⟨_, (tight_ofNames names).isLeast_number hint, rfl⟩

theorem firstFresh_congr {names names' : List Name} (h : ∀ x, x ∈ names ↔ x ∈ names') :
    firstFresh names = firstFresh names' := by
  funext hint
  obtain ⟨n, hn, hfirst⟩ := isLeast_firstFresh names hint
  obtain ⟨n', hn', hfirst'⟩ := isLeast_firstFresh names' hint
  have hfree : freeNumbers names hint = freeNumbers names' hint := by
    simp only [freeNumbers, h]
  rw [hfirst, hfirst', hn.unique (hfree ▸ hn')]

/-- The supply avoids `names`, and it has issued names for the hints `drawn` only. -/
structure Drew (names drawn : List Name) (s : NameSupply) : Prop where
  tight : s.Tight
  mem_used {x : Name} : x ∈ names → x ∈ s.used
  origin {x : Name} : x ∈ s.used → x ∈ names ∨ ∃ hint ∈ drawn, IsNumbered hint x

theorem drew_ofNames (names : List Name) : Drew names [] (ofNames names) :=
  ⟨tight_ofNames names, fun hx => hx, Or.inl⟩

theorem Drew.number_eq {names drawn : List Name} {s : NameSupply} (h : Drew names drawn s)
    {hint : Name} (hnew : hint ∉ drawn) : numbered hint (s.number hint) = firstFresh names hint := by
  have hfree : freeNumbers s.used hint = freeNumbers names hint := by
    ext n
    refine and_congr_right fun _ => not_congr ⟨fun hused => ?_, h.mem_used⟩
    rcases h.origin hused with hmem | ⟨hint', hdrawn, m, hm⟩
    · exact hmem
    · obtain ⟨rfl, -⟩ := numbered_inj hm
      exact absurd hdrawn hnew
  obtain ⟨n, hn, hfirst⟩ := isLeast_firstFresh names hint
  have hnumber := h.tight.isLeast_number hint
  rw [hfree] at hnumber
  rw [hfirst, hnumber.unique hn]

theorem Drew.fresh {names drawn : List Name} {s : NameSupply} (h : Drew names drawn s)
    (hint : Name) : Drew names (hint :: drawn) (fresh hint s).2 := by
  refine ⟨h.tight.fresh hint, fun hx => List.mem_cons_of_mem _ (h.mem_used hx), fun {x} hx => ?_⟩
  rcases List.mem_cons.mp hx with rfl | hx
  · exact Or.inr ⟨hint, List.mem_cons_self, _, rfl⟩
  · rcases h.origin hx with hmem | ⟨hint', hdrawn, hm⟩
    · exact Or.inl hmem
    · exact Or.inr ⟨hint', List.mem_cons_of_mem _ hdrawn, hm⟩

theorem Drew.mono {names drawn drawn' : List Name} {s : NameSupply} (h : Drew names drawn s)
    (hsub : ∀ hint ∈ drawn, hint ∈ drawn') : Drew names drawn' s := by
  refine ⟨h.tight, h.mem_used, fun {x} hx => ?_⟩
  rcases h.origin hx with hmem | ⟨hint, hdrawn, hm⟩
  · exact Or.inl hmem
  · exact Or.inr ⟨hint, hsub hint hdrawn, hm⟩

variable {α β : Type} {names hints hints' : List Name}

/-- From a supply that has issued no names for the hints, the drawing gives `a` and issues names for
the hints. -/
def Draws (names hints : List Name) (draw : StateM NameSupply α) (a : α) : Prop :=
  ∀ drawn s, Drew names drawn s → (∀ hint ∈ hints, hint ∉ drawn) →
    (draw s).1 = a ∧ Drew names (hints ++ drawn) (draw s).2

theorem draws_fresh (names : List Name) (hint : Name) :
    Draws names [hint] (fresh hint) (firstFresh names hint) :=
  fun _ _ h hnew => ⟨h.number_eq (hnew hint List.mem_cons_self), h.fresh hint⟩

theorem Draws.pure (a : α) : Draws names [] (Pure.pure a) a :=
  fun _ _ h _ => ⟨rfl, h⟩

theorem Draws.bind {draw : StateM NameSupply α} {next : α → StateM NameSupply β} {a : α} {b : β}
    (h : Draws names hints draw a) (hnext : Draws names hints' (next a) b)
    (hnodup : (hints ++ hints').Nodup) : Draws names (hints ++ hints') (draw >>= next) b := by
  intro drawn s hs hnew
  obtain ⟨ha, hdrew⟩ := h drawn s hs fun hint hmem => hnew hint (List.mem_append_left _ hmem)
  obtain ⟨-, -, hdisjoint⟩ := List.nodup_append.mp hnodup
  have hfresh : ∀ hint ∈ hints', hint ∉ hints ++ drawn := by
    intro hint hmem hmem'
    rcases List.mem_append.mp hmem' with hmem' | hmem'
    · exact hdisjoint hint hmem' hint hmem rfl
    · exact hnew hint (List.mem_append_right _ hmem) hmem'
  have hrest := hnext _ _ hdrew hfresh
  rw [← ha] at hrest
  refine ⟨hrest.1, hrest.2.mono fun hint hmem => ?_⟩
  simp only [List.mem_append] at hmem ⊢
  tauto

theorem Draws.mapM {draw : α → StateM NameSupply β} {k : α → List Name} {b : α → β} {as : List α}
    (h : ∀ a ∈ as, Draws names (k a) (draw a) (b a)) (hnodup : (as.flatMap k).Nodup) :
    Draws names (as.flatMap k) (as.mapM draw) (as.map b) := by
  induction as with
  | nil => exact Draws.pure []
  | cons a as ih =>
      rw [List.flatMap_cons] at hnodup ⊢
      have hrest := ih (fun c hc => h c (List.mem_cons_of_mem _ hc)) hnodup.of_append_right
      rw [List.mapM_cons, List.map_cons]
      refine (h a List.mem_cons_self).bind ?_ hnodup
      rw [← List.append_nil (as.flatMap k)] at hnodup ⊢
      exact hrest.bind (Draws.pure _) hnodup.of_append_right

end NameSupply

end YulPruner
