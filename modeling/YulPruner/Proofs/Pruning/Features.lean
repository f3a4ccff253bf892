import YulPruner.Proofs.Pruning.Prune
import YulPruner.Proofs.Syntax.Features

namespace YulPruner

section Redirection

variable (r : Redirection)

@[simp] theorem Item.features_redirect (e : Expr) (bound : Nat) :
    (Item.value (e.redirect r) bound).features = (Item.value e bound).features := by
  rw [Item.features, Expr.redirect_eq_mapCallees, Expr.callSites_mapCallees, List.map_map]
  rfl

mutual

theorem Stmt.featuresOf_redirect : ∀ s : Stmt,
    featuresOf (s.redirect r).items = featuresOf s.items
  | .expression e => by simp [Stmt.redirect, Stmt.items]
  | .assignment targets e => by simp [Stmt.redirect, Stmt.items]
  | .declaration names none => rfl
  | .declaration names (some e) => by simp [Stmt.redirect, Stmt.items]
  | .function ⟨name, parameters, returns, body⟩ => by
      have hbody := Block.featuresOf_redirect body
      by_cases hname : name ∈ r.excluded
      · simp [Stmt.redirect, Stmt.items, hname]
      · simp [Stmt.redirect, Stmt.items, hname, hbody, Item.features]
  | .conditional condition body => by
      have hbody := Block.featuresOf_redirect body
      simp [Stmt.redirect, Stmt.items, hbody]
  | .switch scrutinee cases => by
      have hcases := Case.featuresOf_redirect cases
      simp [Stmt.redirect, Stmt.items, hcases]
  | .loop pre condition post body => by
      have hpre := Block.featuresOf_redirect pre
      have hpost := Block.featuresOf_redirect post
      have hbody := Block.featuresOf_redirect body
      simp [Stmt.redirect, Stmt.items, hpre, hpost, hbody]
  | .jump j => rfl
  | .block body => Block.featuresOf_redirect body

theorem Block.featuresOf_redirect : ∀ b : Block,
    featuresOf (Block.items (Block.redirect r b)) = featuresOf (Block.items b)
  | [] => rfl
  | s :: ss => by
      have hs := Stmt.featuresOf_redirect s
      have hss := Block.featuresOf_redirect ss
      simp [Block.redirect, Block.items, hs, hss]

theorem Case.featuresOf_redirect : ∀ cases : List Case,
    featuresOf (Case.items (Case.redirectAll r cases)) = featuresOf (Case.items cases)
  | [] => rfl
  | ⟨_, body⟩ :: cases => by
      have hbody := Block.featuresOf_redirect body
      have hcases := Case.featuresOf_redirect cases
      simp [Case.redirectAll, Case.items, hbody, hcases]

end

theorem Program.mem_features_redirect {p : Program} {k : Feature} :
    k ∈ (p.redirect r).features ↔ k ∈ p.features := by
  rw [Program.mem_features, Program.redirect, Block.featuresOf_redirect, Program.mem_features]

end Redirection

section Splits

variable {k : Feature}

theorem Function.IsShim.mem_featuresOf {f g : Function} (h : g.IsShim f) :
    k ∈ featuresOf (Stmt.function g).items ↔ k = .functions ∨ k = .calls := by
  have hitems : (Stmt.function g).items = .definition g :: Block.items g.body := rfl
  rw [hitems, h.body, Block.items_singleton, Function.forward]
  by_cases hret : f.trim.returns = []
  · simp [hret, Stmt.items, Item.features, Expr.callSites, Expr.callSitesAll_map_var]
  · simp [hret, Stmt.items, Item.features, Expr.callSites, Expr.callSitesAll_map_var]

theorem mem_featuresOf_items {b : Block} :
    k ∈ featuresOf (Block.items b) ↔ ∃ s ∈ b, k ∈ featuresOf s.items := by
  rw [featuresOf, Block.items_eq_flatMap, List.flatMap_assoc, List.mem_flatMap]
  rfl

theorem mem_featuresOf_flatMap {α : Type} (place : α → List Stmt) (as : List α) :
    k ∈ featuresOf (Block.items (as.flatMap place)) ↔
      ∃ a ∈ as, k ∈ featuresOf (Block.items (place a)) := by
  simp only [mem_featuresOf_items, List.mem_flatMap]
  constructor
  · rintro ⟨s, ⟨a, ha, hs⟩, hk⟩
    exact ⟨a, ha, s, hs, hk⟩
  · rintro ⟨a, ha, s, hs, hk⟩
    exact ⟨s, ⟨a, ha, hs⟩, hk⟩

namespace Program.SplitInto

variable {p : Program} {fs : List PrunedFunction} (h : p.SplitInto fs)

include h

/-- What takes the place of a statement has calls if the statement is split, and otherwise what the
statement has. -/
theorem mem_featuresOf_expandAt {before after : List Stmt} {s : Stmt}
    (hroot : p.root = before ++ s :: after) :
    k ∈ featuresOf (Block.items (expandAt fs s before.length)) ↔ k ∈ featuresOf s.items ∨
      (k = .calls ∧ (fs.find? (·.entry.position == before.length)).isSome = true) := by
  cases hfind : fs.find? (·.entry.position == before.length) with
  | none =>
      rw [expandAt_of_none hfind, Block.items_singleton]
      simp
  | some f =>
      obtain ⟨rfl, -⟩ := h.find?_position hroot hfind
      obtain ⟨hreduced, hshim, -⟩ := h.split (List.mem_of_find?_eq_some hfind)
      have hitems : featuresOf (Stmt.function f.split.reduced).items =
          featuresOf (Stmt.function f.entry.function).items := by
        rw [hreduced]
        rfl
      have hfunctions : Feature.functions ∈ featuresOf (Stmt.function f.entry.function).items :=
        List.mem_cons_self
      rw [expandAt_of_some hfind, Block.items, Block.items_singleton, featuresOf_append,
        List.mem_append, hitems, hshim.mem_featuresOf]
      constructor
      · rintro (hk | rfl | rfl)
        · exact Or.inl hk
        · exact Or.inl hfunctions
        · exact Or.inr ⟨rfl, rfl⟩
      · rintro (hk | ⟨rfl, -⟩)
        · exact Or.inl hk
        · exact Or.inr (Or.inr rfl)

theorem exists_find?_position (hfs : fs ≠ []) : ∃ before s after, p.root = before ++ s :: after ∧
    (fs.find? (·.entry.position == before.length)).isSome = true := by
  obtain ⟨f, hf⟩ := List.exists_mem_of_ne_nil _ hfs
  obtain ⟨-, before, after, hroot, hposition, -⟩ := mem_indexFrom.mp (h.mem_prunable hf).1
  refine ⟨before, _, after, hroot, ?_⟩
  rw [List.find?_isSome]
  exact ⟨f, hf, by simpa using hposition⟩

/-- Splitting some functions of a program brings calls into it and nothing else that is new. -/
theorem mem_featuresOf_expandSplits (hfs : fs ≠ []) :
    k ∈ featuresOf (Block.items (expandSplits fs p.root)) ↔
      k ∈ featuresOf (Block.items p.root) ∨ k = .calls := by
  rw [expandSplits_eq, mem_featuresOf_flatMap, mem_featuresOf_items]
  constructor
  · rintro ⟨⟨s, i⟩, hs, hk⟩
    obtain ⟨before, after, hroot, rfl⟩ := mem_zipIdx_iff_append.mp hs
    rcases (h.mem_featuresOf_expandAt hroot).mp hk with hk | ⟨hk, -⟩
    · exact Or.inl ⟨s, hroot ▸ List.mem_append_right _ List.mem_cons_self, hk⟩
    · exact Or.inr hk
  · rintro (⟨s, hs, hk⟩ | hk)
    · obtain ⟨before, after, hroot⟩ := List.append_of_mem hs
      exact ⟨(s, before.length), mem_zipIdx_iff_append.mpr ⟨before, after, hroot, rfl⟩,
        (h.mem_featuresOf_expandAt hroot).mpr (Or.inl hk)⟩
    · obtain ⟨before, s, after, hroot, hfind⟩ := h.exists_find?_position hfs
      exact ⟨(s, before.length), mem_zipIdx_iff_append.mpr ⟨before, after, hroot, rfl⟩,
        (h.mem_featuresOf_expandAt hroot).mpr (Or.inr ⟨hk, hfind⟩)⟩

end Program.SplitInto

theorem Program.mem_features_prune {p : Program} (hp : p.prunable ≠ []) (names : NameSupply) :
    k ∈ (p.prune names).1.program.features ↔ k ∈ p.features ∨ k = .calls := by
  obtain ⟨xs, ⟨hsplit, -⟩, -⟩ := p.splitPrunable_issues names
  have hfs : (p.splitPrunable names).1 ≠ [] := by
    intro hnil
    have hentries := hsplit.entries
    rw [hnil, List.map_nil, eq_comm, List.map_eq_nil_iff] at hentries
    exact hp hentries
  have hprogram : (p.prune names).1.program =
      (Program.mk (expandSplits (p.splitPrunable names).1 p.root)).redirect
        (redirectionOf (p.splitPrunable names).1) := rfl
  rw [hprogram, mem_features_redirect, mem_features, hsplit.mem_featuresOf_expandSplits hfs,
    mem_features]

end Splits

end YulPruner
