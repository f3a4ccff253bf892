import YulPruner.Analysis.Usage
import YulPruner.Proofs.Basic

namespace YulPruner

/-- Induction over the statements at the top level, where definitions stand apart. -/
@[elab_as_elim]
theorem rootInduction {motive : List Stmt → Prop} (nil : motive [])
    (function : ∀ f ss, motive ss → motive (.function f :: ss))
    (other : ∀ s ss, (∀ f, s ≠ .function f) → motive ss → motive (s :: ss)) :
    ∀ ss, motive ss := by
  intro ss
  induction ss with
  | nil => exact nil
  | cons s ss ih =>
      cases s with
      | function f => exact function f ss ih
      | _ => exact other _ ss (by simp) ih

theorem find?_name_eq_some {functions : List Function} (hnodup : (functions.map (·.name)).Nodup)
    {c : Name} {f : Function} :
    functions.find? (·.name == c) = some f ↔ f ∈ functions ∧ f.name = c := by
  constructor
  · intro hf
    exact ⟨List.mem_of_find?_eq_some hf, by simpa using List.find?_some hf⟩
  · rintro ⟨hf, rfl⟩
    exact find?_key_of_mem (·.name) hnodup hf

theorem Program.functions_cons (f : Function) (ss : List Stmt) :
    (Program.mk (.function f :: ss)).functions = f :: (Program.mk ss).functions := rfl

theorem Program.functions_cons_of_ne {s : Stmt} (hs : ∀ f, s ≠ .function f) (ss : List Stmt) :
    (Program.mk (s :: ss)).functions = (Program.mk ss).functions := by
  cases s with
  | function f => exact absurd rfl (hs f)
  | _ => rfl

theorem Program.mem_functions {p : Program} {f : Function} :
    f ∈ p.functions ↔ Stmt.function f ∈ p.root := by
  rw [Program.functions, List.mem_filterMap]
  constructor
  · rintro ⟨s, hs, hf⟩
    cases s with
    | function g => cases hf; exact hs
    | _ => cases hf
  · exact fun h => ⟨_, h, rfl⟩

theorem Program.name_of_function? {p : Program} {c : Name} {f : Function}
    (h : p.function? c = some f) : f.name = c := by
  simpa using List.find?_some h

theorem Program.mem_functions_of_function? {p : Program} {c : Name} {f : Function}
    (h : p.function? c = some f) : f ∈ p.functions :=
  List.mem_of_find?_eq_some h

theorem Program.function?_cons (f : Function) (ss : List Stmt) (c : Name) :
    (Program.mk (.function f :: ss)).function? c =
      if f.name = c then some f else (Program.mk ss).function? c := by
  rw [Program.function?, Program.functions_cons]
  by_cases h : f.name = c
  · rw [if_pos h, List.find?_cons_of_pos (by simpa using h)]
  · rw [if_neg h, List.find?_cons_of_neg (by simpa using h), Program.function?]

theorem Program.function?_cons_of_ne {s : Stmt} (hs : ∀ f, s ≠ .function f) (ss : List Stmt)
    (c : Name) : (Program.mk (s :: ss)).function? c = (Program.mk ss).function? c := by
  rw [Program.function?, Program.functions_cons_of_ne hs, Program.function?]

theorem indexFrom_function (n : Nat) (seen : List Name) (f : Function) (ss : List Stmt) :
    indexFrom n seen (.function f :: ss) =
      if f.name ∈ seen then indexFrom (n + 1) seen ss
      else ⟨n, f⟩ :: indexFrom (n + 1) (f.name :: seen) ss := rfl

theorem indexFrom_of_ne {s : Stmt} (hs : ∀ f, s ≠ .function f) (n : Nat) (seen : List Name)
    (ss : List Stmt) : indexFrom n seen (s :: ss) = indexFrom (n + 1) seen ss := by
  cases s with
  | function f => exact absurd rfl (hs f)
  | _ => rfl

def IndexEntry.IsFirst (e : IndexEntry) (ss : List Stmt) (n : Nat) : Prop :=
  ∃ before after, ss = before ++ .function e.function :: after ∧
    e.position = n + before.length ∧ ∀ g, Stmt.function g ∈ before → g.name ≠ e.function.name

theorem IndexEntry.isFirst_cons (e : IndexEntry) (s : Stmt) (ss : List Stmt) (n : Nat) :
    e.IsFirst (s :: ss) n ↔ (s = .function e.function ∧ e.position = n) ∨
      (e.IsFirst ss (n + 1) ∧ ∀ g, s = .function g → g.name ≠ e.function.name) := by
  constructor
  · rintro ⟨before, after, hss, hpos, hbefore⟩
    cases before with
    | nil =>
        obtain ⟨rfl, rfl⟩ := List.cons.inj hss
        exact Or.inl ⟨rfl, hpos⟩
    | cons t before =>
        obtain ⟨rfl, rfl⟩ := List.cons.inj hss
        refine Or.inr ⟨⟨before, after, rfl, ?_, fun g hg => hbefore g (List.mem_cons_of_mem _ hg)⟩,
          fun g hg => hbefore g (hg ▸ List.mem_cons_self)⟩
        rw [hpos, List.length_cons]
        omega
  · rintro (⟨rfl, hpos⟩ | ⟨⟨before, after, rfl, hpos, hbefore⟩, hs⟩)
    · exact ⟨[], ss, rfl, hpos, by simp⟩
    · refine ⟨s :: before, after, rfl, ?_, ?_⟩
      · rw [hpos, List.length_cons]
        omega
      · intro g hg
        rcases List.mem_cons.mp hg with hg | hg
        · exact hs g hg.symm
        · exact hbefore g hg

theorem mem_indexFrom {e : IndexEntry} {n : Nat} {seen : List Name} {ss : List Stmt} :
    e ∈ indexFrom n seen ss ↔ e.function.name ∉ seen ∧ e.IsFirst ss n := by
  induction ss using rootInduction generalizing n seen with
  | nil =>
      refine iff_of_false List.not_mem_nil ?_
      rintro ⟨_, before, after, hss, _⟩
      simp at hss
  | function f ss ih =>
      rw [e.isFirst_cons, indexFrom_function]
      by_cases hf : f.name ∈ seen
      · rw [if_pos hf, ih]
        refine and_congr_right fun he => ?_
        have hne : f.name ≠ e.function.name := fun h => he (h ▸ hf)
        constructor
        · exact fun h => Or.inr ⟨h, fun g hg => by cases hg; exact hne⟩
        · rintro (⟨h, _⟩ | ⟨h, _⟩)
          · exact absurd (congrArg FunctionOf.name (Stmt.function.inj h)) hne
          · exact h
      · rw [if_neg hf, List.mem_cons, ih]
        constructor
        · rintro (rfl | ⟨he, h⟩)
          · exact ⟨hf, Or.inl ⟨rfl, rfl⟩⟩
          · rw [List.mem_cons, not_or] at he
            exact ⟨he.2, Or.inr ⟨h, fun g hg => by cases hg; exact Ne.symm he.1⟩⟩
        · rintro ⟨he, (⟨h, hpos⟩ | ⟨h, hne⟩)⟩
          · cases e
            cases h
            exact Or.inl (by rw [← hpos])
          · refine Or.inr ⟨?_, h⟩
            rw [List.mem_cons, not_or]
            exact ⟨Ne.symm (hne f rfl), he⟩
  | other s ss hs ih =>
      rw [e.isFirst_cons, indexFrom_of_ne hs, ih]
      refine and_congr_right fun _ => ?_
      constructor
      · exact fun h => Or.inr ⟨h, fun g hg => absurd hg (hs g)⟩
      · rintro (⟨h, _⟩ | ⟨h, _⟩)
        · exact absurd h (hs _)
        · exact h

theorem indexFrom_names_nodup (n : Nat) (seen : List Name) (ss : List Stmt) :
    ((indexFrom n seen ss).map (·.function.name)).Nodup := by
  induction ss using rootInduction generalizing n seen with
  | nil => exact List.nodup_nil
  | function f ss ih =>
      rw [indexFrom_function]
      split
      · exact ih _ _
      · refine List.nodup_cons.mpr ⟨?_, ih _ _⟩
        intro hf
        obtain ⟨e, he, hname⟩ := List.mem_map.mp hf
        exact (mem_indexFrom.mp he).1 (hname ▸ List.mem_cons_self)
  | other s ss hs ih =>
      rw [indexFrom_of_ne hs]
      exact ih _ _

theorem IndexEntry.IsFirst.function? {e : IndexEntry} {ss : List Stmt} {n : Nat}
    (h : e.IsFirst ss n) : (Program.mk ss).function? e.function.name = some e.function := by
  obtain ⟨before, after, rfl, _, hbefore⟩ := h
  rw [Program.function?, Program.functions, List.filterMap_append, List.find?_append,
    List.find?_eq_none.mpr, Option.none_or]
  · exact List.find?_cons_of_pos (by simp)
  · intro g hg
    simpa using hbefore g ((Program.mem_functions (p := ⟨before⟩)).mp hg)

theorem Program.function?_of_mem_index {p : Program} {e : IndexEntry} (h : e ∈ p.index) :
    p.function? e.function.name = some e.function :=
  (mem_indexFrom.mp h).2.function?

theorem exists_mem_indexFrom {ss : List Stmt} {seen : List Name} {c : Name} (hc : c ∉ seen)
    {f : Function} (hf : (Program.mk ss).function? c = some f) (n : Nat) :
    ∃ e ∈ indexFrom n seen ss, e.function = f := by
  induction ss using rootInduction generalizing n seen with
  | nil => cases hf
  | function g ss ih =>
      rw [Program.function?_cons] at hf
      rw [indexFrom_function]
      by_cases hg : g.name = c
      · rw [if_pos hg] at hf
        rw [if_neg (hg ▸ hc)]
        exact ⟨_, List.mem_cons_self, Option.some.inj hf⟩
      · rw [if_neg hg] at hf
        split
        · exact ih hc hf _
        · have hc' : c ∉ g.name :: seen := by
            rw [List.mem_cons, not_or]
            exact ⟨Ne.symm hg, hc⟩
          obtain ⟨e, he, hef⟩ := ih hc' hf (n + 1)
          exact ⟨e, List.mem_cons_of_mem _ he, hef⟩
  | other s ss hs ih =>
      rw [Program.function?_cons_of_ne hs] at hf
      rw [indexFrom_of_ne hs]
      exact ih hc hf _

theorem Program.exists_mem_index {p : Program} {c : Name} {f : Function}
    (h : p.function? c = some f) : ∃ e ∈ p.index, e.function = f :=
  exists_mem_indexFrom List.not_mem_nil h 0

theorem Program.map_function_entry (p : Program) (c : Name) :
    IndexEntry.function <$> p.entry? c = p.function? c := by
  cases hf : p.function? c with
  | some f =>
      obtain ⟨e, he, rfl⟩ := exists_mem_index hf
      obtain rfl := name_of_function? hf
      have hfind := find?_key_of_mem (·.function.name) (indexFrom_names_nodup 0 [] p.root) he
      exact congrArg (Option.map IndexEntry.function) hfind
  | none =>
      have hfind : p.index.find? (·.function.name == c) = none := by
        rw [List.find?_eq_none]
        intro e he hname
        obtain rfl : e.function.name = c := by simpa using hname
        rw [function?_of_mem_index he] at hf
        cases hf
      exact congrArg (Option.map IndexEntry.function) hfind

end YulPruner
