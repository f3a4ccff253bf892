import YulPruner.Proofs.Pruning.Expansion
import Mathlib.Data.List.Pairwise

namespace YulPruner

namespace Program

variable {p : Program} {shim : Name → Function}

/-- What the expansion keeps of a first definition, but for the callees in it. -/
def retained (p : Program) (f : Function) : Function := if f.name ∈ p.splitNames then f.trim else f

theorem retained_of_mem {f : Function} (hf : f.name ∈ p.splitNames) : p.retained f = f.trim :=
  if_pos hf

theorem retained_of_not_mem {f : Function} (hf : f.name ∉ p.splitNames) : p.retained f = f :=
  if_neg hf

theorem mem_root_of_function? {c : Name} {f : Function} (hf : p.function? c = some f) :
    Stmt.function f ∈ p.root :=
  mem_functions.mp (mem_functions_of_function? hf)

theorem name_mem_names {f : Function} (hf : Stmt.function f ∈ p.root) : f.name ∈ p.names :=
  Block.name_mem_names (Block.definition_mem_items hf)

theorem splitNames_subset_names {c : Name} (hc : c ∈ p.splitNames) : c ∈ p.names := by
  obtain ⟨f, hf, -⟩ := mem_splitNames.mp hc
  have hmem := name_mem_names (mem_root_of_function? hf)
  rwa [name_of_function? hf] at hmem

namespace Shims

variable (h : p.Shims shim)

include h

theorem not_mem_names {c x : Name} (hc : c ∈ p.splitNames) (hx : x ∈ (shim c).heading) :
    x ∉ p.names :=
  h.fresh (List.mem_flatMap.mpr ⟨c, hc, hx⟩)

theorem name_not_mem_names {c : Name} (hc : c ∈ p.splitNames) : (shim c).name ∉ p.names :=
  h.not_mem_names hc List.mem_cons_self

theorem name_ne {c x : Name} (hc : c ∈ p.splitNames) (hx : x ∈ p.names) : x ≠ (shim c).name :=
  fun hname => h.name_not_mem_names hc (hname ▸ hx)

theorem heading_nodup {c : Name} (hc : c ∈ p.splitNames) : (shim c).heading.Nodup :=
  (List.nodup_flatMap.mp h.nodup).1 c hc

theorem name_injOn {c d : Name} (hc : c ∈ p.splitNames) (hd : d ∈ p.splitNames)
    (hname : (shim c).name = (shim d).name) : c = d := by
  by_contra hne
  have hsymm : Std.Symm (Function.onFun List.Disjoint fun c => (shim c).heading) :=
    ⟨fun _ _ => List.disjoint_symm⟩
  have hdisjoint := (List.nodup_flatMap.mp h.nodup).2.forall hc hd hne
  exact hdisjoint List.mem_cons_self (hname ▸ List.mem_cons_self)

theorem function?_shim_of_expands {seen : List Name} {ss out : List Stmt}
    (he : p.Expands shim seen ss out) {c : Name} (hc : c ∈ p.splitNames) (hseen : c ∉ seen)
    {f : Function} (hf : (Program.mk ss).function? c = some f) :
    (Program.mk out).function? (shim c).name = some (shim c) := by
  have hne {g : Function} (hg : Stmt.function g ∈ p.root) : g.name ≠ (shim c).name :=
    h.name_ne hc (name_mem_names hg)
  induction he with
  | nil => cases hf
  | @split _ _ _ g hg hu _ _ ih =>
      rw [function?_cons] at hf
      rw [function?_cons, Function.mapCallees_name, Function.trim_name, if_neg (hne (mem_root_of_function? hg)),
        function?_cons]
      by_cases hgc : g.name = c
      · rw [hgc, if_pos rfl]
      · have hshim : (shim g.name).name ≠ (shim c).name :=
          fun hname => hgc (h.name_injOn ((name_mem_splitNames hg).mpr hu) hc hname)
        rw [if_neg hgc] at hf
        rw [if_neg hshim]
        exact ih (by simp [Ne.symm hgc, hseen]) hf
  | @keep _ _ _ g hg hu _ _ ih =>
      have hgc : g.name ≠ c := fun hgc => hu ((name_mem_splitNames hg).mp (hgc ▸ hc))
      rw [function?_cons, if_neg hgc] at hf
      rw [function?_cons, Function.mapCallees_name, if_neg (hne (mem_root_of_function? hg))]
      exact ih (by simp [Ne.symm hgc, hseen]) hf
  | @again _ _ _ g hg hgseen _ ih =>
      have hgc : g.name ≠ c := fun hgc => hseen (hgc ▸ hgseen)
      rw [function?_cons, if_neg hgc] at hf
      rw [function?_cons, Function.mapCallees_name, if_neg (hne hg)]
      exact ih hseen hf
  | other hs _ _ ih =>
      rw [function?_cons_of_ne hs] at hf
      rw [function?_cons_of_ne (Stmt.mapCallees_ne_function hs)]
      exact ih hseen hf

theorem function?_shim {c : Name} (hc : c ∈ p.splitNames) :
    (p.expansion shim).function? (shim c).name = some (shim c) := by
  obtain ⟨f, hf, -⟩ := mem_splitNames.mp hc
  exact h.function?_shim_of_expands (p.expands_expansion shim) hc List.not_mem_nil hf

omit h in
theorem function?_of_expands {seen : List Name} {ss out : List Stmt}
    (he : p.Expands shim seen ss out) {c : Name} (hc : ∀ d ∈ p.splitNames, (shim d).name ≠ c)
    (hseen : c ∉ seen) : (Program.mk out).function? c =
      ((Program.mk ss).function? c).map fun f => (p.retained f).mapCallees (p.callee shim) := by
  induction he with
  | nil => rfl
  | @split _ _ _ g hg hu _ _ ih =>
      have hsplit := (name_mem_splitNames hg).mpr hu
      rw [function?_cons, function?_cons, function?_cons, if_neg (hc _ hsplit),
        Function.mapCallees_name, Function.trim_name]
      by_cases hgc : g.name = c
      · rw [if_pos hgc, if_pos hgc, Option.map_some, retained_of_mem hsplit]
      · rw [if_neg hgc, if_neg hgc]
        exact ih (by simp [Ne.symm hgc, hseen])
  | @keep _ _ _ g hg hu _ _ ih =>
      have hsplit : g.name ∉ p.splitNames := fun hs => hu ((name_mem_splitNames hg).mp hs)
      rw [function?_cons, function?_cons, Function.mapCallees_name]
      by_cases hgc : g.name = c
      · rw [if_pos hgc, if_pos hgc, Option.map_some, retained_of_not_mem hsplit]
      · rw [if_neg hgc, if_neg hgc]
        exact ih (by simp [Ne.symm hgc, hseen])
  | @again _ _ _ g _ hgseen _ ih =>
      have hgc : g.name ≠ c := fun hgc => hseen (hgc ▸ hgseen)
      rw [function?_cons, function?_cons, Function.mapCallees_name, if_neg hgc, if_neg hgc]
      exact ih hseen
  | other hs _ _ ih =>
      rw [function?_cons_of_ne hs, function?_cons_of_ne (Stmt.mapCallees_ne_function hs)]
      exact ih hseen

omit h in
/-- Behind a name that is not a shim's stands what is retained of the function found before. -/
theorem function?_expansion {c : Name} (hc : ∀ d ∈ p.splitNames, (shim d).name ≠ c) :
    (p.expansion shim).function? c =
      (p.function? c).map fun f => (p.retained f).mapCallees (p.callee shim) :=
  function?_of_expands (p.expands_expansion shim) hc List.not_mem_nil

theorem function?_expansion_of_mem_names {c : Name} (hc : c ∈ p.names) :
    (p.expansion shim).function? c =
      (p.function? c).map fun f => (p.retained f).mapCallees (p.callee shim) :=
  function?_expansion fun _ hd hname => h.name_ne hd hc hname.symm

end Shims

/-- The names met in the expansion, `seen'`, when those in `seen` have been met in the program. -/
structure SeenAs (p : Program) (shim : Name → Function) (seen seen' : List Name) : Prop where
  mem_names {x : Name} : x ∈ seen → x ∈ p.names
  mem_iff {x : Name} : x ∈ seen' ↔ x ∈ seen ∨ ∃ c ∈ seen, c ∈ p.splitNames ∧ (shim c).name = x

namespace SeenAs

variable {seen seen' : List Name} (hseen : p.SeenAs shim seen seen')

include hseen

theorem mem_iff_of_mem_names (h : p.Shims shim) {x : Name} (hx : x ∈ p.names) :
    x ∈ seen' ↔ x ∈ seen := by
  rw [hseen.mem_iff]
  constructor
  · rintro (hmem | ⟨c, -, hc, rfl⟩)
    · exact hmem
    · exact absurd hx (h.name_not_mem_names hc)
  · exact Or.inl

theorem shim_not_mem (h : p.Shims shim) {c : Name} (hc : c ∈ p.splitNames) (hnew : c ∉ seen) :
    (shim c).name ∉ c :: seen' := by
  rw [List.mem_cons, hseen.mem_iff]
  rintro (hname | hmem | ⟨d, hd, hdsplit, hname⟩)
  · exact h.name_ne hc (splitNames_subset_names hc) hname.symm
  · exact h.name_not_mem_names hc (hseen.mem_names hmem)
  · exact hnew (h.name_injOn hdsplit hc hname ▸ hd)

theorem split {c : Name} (hc : c ∈ p.splitNames) :
    p.SeenAs shim (c :: seen) ((shim c).name :: c :: seen') := by
  refine ⟨?_, ?_⟩
  · intro x hx
    rcases List.mem_cons.mp hx with rfl | hx
    · exact splitNames_subset_names hc
    · exact hseen.mem_names hx
  · intro x
    simp only [List.mem_cons, hseen.mem_iff]
    constructor
    · rintro (rfl | rfl | hx | ⟨d, hd, hdsplit, rfl⟩)
      · exact Or.inr ⟨c, Or.inl rfl, hc, rfl⟩
      · exact Or.inl (Or.inl rfl)
      · exact Or.inl (Or.inr hx)
      · exact Or.inr ⟨d, Or.inr hd, hdsplit, rfl⟩
    · rintro ((rfl | hx) | ⟨d, rfl | hd, hdsplit, rfl⟩)
      · exact Or.inr (Or.inl rfl)
      · exact Or.inr (Or.inr (Or.inl hx))
      · exact Or.inl rfl
      · exact Or.inr (Or.inr (Or.inr ⟨d, hd, hdsplit, rfl⟩))

theorem keep {c : Name} (hc : c ∉ p.splitNames) (hmem : c ∈ p.names) :
    p.SeenAs shim (c :: seen) (c :: seen') := by
  refine ⟨?_, ?_⟩
  · intro x hx
    rcases List.mem_cons.mp hx with rfl | hx
    · exact hmem
    · exact hseen.mem_names hx
  · intro x
    simp only [List.mem_cons, hseen.mem_iff]
    constructor
    · rintro (rfl | hx | ⟨d, hd, hdsplit, rfl⟩)
      · exact Or.inl (Or.inl rfl)
      · exact Or.inl (Or.inr hx)
      · exact Or.inr ⟨d, Or.inr hd, hdsplit, rfl⟩
    · rintro ((rfl | hx) | ⟨d, rfl | hd, hdsplit, rfl⟩)
      · exact Or.inl rfl
      · exact Or.inr (Or.inl hx)
      · exact absurd hdsplit hc
      · exact Or.inr (Or.inr ⟨d, hd, hdsplit, rfl⟩)

end SeenAs

theorem seenAs_nil : p.SeenAs shim [] [] := by
  refine ⟨fun hx => absurd hx List.not_mem_nil, ?_⟩
  intro x
  simp

end Program

end YulPruner
