import YulPruner.Proofs.Pruning.Expansion

namespace YulPruner

structure Program.SplitInto (p : Program) (fs : List PrunedFunction) : Prop where
  entries : fs.map (·.entry) = p.prunable.map Prod.fst
  split {f : PrunedFunction} : f ∈ fs → f.split.reduced = f.entry.function.trim ∧
    f.split.shim.IsShim f.entry.function ∧ f.split.shim.IsNumberedAfter f.entry.function

theorem splitInto_of_forall₂ {as : List (IndexEntry × FunctionUsage)} {fs : List PrunedFunction}
    (h : List.Forall₂ (fun eu f => f.entry = eu.1 ∧ f.split.reduced = f.entry.function.trim ∧
      f.split.shim.IsShim f.entry.function ∧ f.split.shim.IsNumberedAfter f.entry.function) as fs) :
    fs.map (·.entry) = as.map Prod.fst ∧ ∀ f ∈ fs, f.split.reduced = f.entry.function.trim ∧
      f.split.shim.IsShim f.entry.function ∧
        f.split.shim.IsNumberedAfter f.entry.function := by
  induction h with
  | nil => exact ⟨rfl, by simp⟩
  | cons h _ ih =>
      refine ⟨by rw [List.map_cons, List.map_cons, h.1, ih.1], ?_⟩
      intro f hf
      rcases List.mem_cons.mp hf with rfl | hf
      · exact h.2
      · exact ih.2 f hf

theorem Program.splitPrunable_issues (p : Program) :
    NameSupply.Issues p.splitPrunable fun fs xs =>
      p.SplitInto fs ∧ xs = fs.flatMap (·.split.shim.heading) := by
  refine (NameSupply.Issues.mapM (R := fun eu f => f.entry = eu.1 ∧
    f.split.reduced = f.entry.function.trim ∧ f.split.shim.IsShim f.entry.function ∧
      f.split.shim.IsNumberedAfter f.entry.function)
    (k := fun f => f.split.shim.heading) ?_).mono ?_
  · rintro ⟨e, u⟩ he
    obtain ⟨-, rfl, -⟩ := mem_prunable.mp he
    refine (e.function.split_issues p).bind fun s xs hs => NameSupply.Issues.pure ?_
    exact ⟨⟨rfl, hs.1⟩, by rw [List.append_nil, hs.2]⟩
  · rintro fs xs ⟨hfs, hxs⟩
    obtain ⟨hentries, hsplit⟩ := splitInto_of_forall₂ hfs
    exact ⟨⟨hentries, hsplit _⟩, hxs⟩

def shimOf (fs : List PrunedFunction) (c : Name) : Function :=
  match fs.find? (·.entry.function.name == c) with
  | some f => f.split.shim
  | none => ⟨c, [], [], []⟩

def expandAt (fs : List PrunedFunction) (s : Stmt) (position : Nat) : List Stmt :=
  match fs.find? (·.entry.position == position) with
  | some f => [.function f.split.reduced, .function f.split.shim]
  | none => [s]

theorem expandAt_of_some {fs : List PrunedFunction} {position : Nat} {f : PrunedFunction}
    (h : fs.find? (·.entry.position == position) = some f) (s : Stmt) :
    expandAt fs s position = [.function f.split.reduced, .function f.split.shim] := by
  rw [expandAt, h]

theorem expandAt_of_none {fs : List PrunedFunction} {position : Nat}
    (h : fs.find? (·.entry.position == position) = none) (s : Stmt) :
    expandAt fs s position = [s] := by
  rw [expandAt, h]

theorem expandSplits_eq (fs : List PrunedFunction) (root : Block) :
    expandSplits fs root = root.zipIdx.flatMap fun x => expandAt fs x.1 x.2 := rfl

namespace Program.SplitInto

variable {p : Program} {fs : List PrunedFunction} (h : p.SplitInto fs)

include h

theorem names : fs.map (·.entry.function.name) = p.splitNames := by
  have hnames := congrArg (List.map fun e : IndexEntry => e.function.name) h.entries
  rwa [List.map_map, List.map_map] at hnames

theorem mem_prunable {f : PrunedFunction} (hf : f ∈ fs) :
    f.entry ∈ p.index ∧ (f.entry.function.usage p).isPrunable := by
  have hentry : f.entry ∈ p.prunable.map Prod.fst := h.entries ▸ List.mem_map_of_mem hf
  obtain ⟨⟨e, u⟩, he, hef⟩ := List.mem_map.mp hentry
  obtain ⟨hindex, -, hu⟩ := Program.mem_prunable.mp he
  exact hef ▸ ⟨hindex, hu⟩

theorem exists_of_mem_index {e : IndexEntry} (he : e ∈ p.index)
    (hu : (e.function.usage p).isPrunable) : ∃ f ∈ fs, f.entry = e := by
  have hentry : e ∈ fs.map (·.entry) := by
    rw [h.entries]
    exact List.mem_map.mpr ⟨(e, _), Program.mem_prunable.mpr ⟨he, rfl, hu⟩, rfl⟩
  exact List.mem_map.mp hentry

theorem eq_of_name_eq {f g : PrunedFunction} (hf : f ∈ fs) (hg : g ∈ fs)
    (hname : f.entry.function.name = g.entry.function.name) : f = g :=
  List.inj_on_of_nodup_map (h.names ▸ splitNames_nodup) hf hg hname

theorem shimOf_eq {f : PrunedFunction} (hf : f ∈ fs) :
    shimOf fs f.entry.function.name = f.split.shim := by
  have hfind : fs.find? (·.entry.function.name == f.entry.function.name) = some f :=
    find?_key_of_mem (·.entry.function.name) (h.names ▸ splitNames_nodup) hf
  rw [shimOf, hfind]

theorem mem_splitNames_iff {c : Name} :
    c ∈ p.splitNames ↔ ∃ f ∈ fs, f.entry.function.name = c := by
  rw [← h.names, List.mem_map]

theorem shimNames_eq : p.shimNames (shimOf fs) = fs.flatMap (·.split.shim.heading) := by
  rw [shimNames, ← h.names, List.flatMap_map]
  exact List.flatMap_congr fun f hf => by rw [h.shimOf_eq hf]

theorem shims (hnodup : (fs.flatMap (·.split.shim.heading)).Nodup)
    (hfresh : ∀ x ∈ fs.flatMap (·.split.shim.heading), x ∉ p.names) : p.Shims (shimOf fs) := by
  refine ⟨?_, ?_, ?_⟩
  · intro f hf hu
    obtain ⟨e, he, rfl⟩ := exists_mem_index hf
    obtain ⟨g, hg, rfl⟩ := h.exists_of_mem_index he hu
    rw [h.shimOf_eq hg]
    exact (h.split hg).2.1
  · rwa [h.shimNames_eq]
  · rw [h.shimNames_eq]
    exact hfresh _

theorem numbersShims : p.NumbersShims (shimOf fs) := by
  intro x hx
  rw [h.shimNames_eq] at hx
  obtain ⟨f, hf, hmem⟩ := List.mem_flatMap.mp hx
  have hfirst := function?_of_mem_index (h.mem_prunable hf).1
  have hroot := mem_functions.mp (mem_functions_of_function? hfirst)
  obtain ⟨hint, hhint, hnumbered⟩ := exists_of_mem_right (h.split hf).2.2 hmem
  exact ⟨hint, Block.mem_names_of_mem_items (Block.definition_mem_items hroot) hhint, hnumbered⟩

theorem target?_of_mem {f : PrunedFunction} (hf : f ∈ fs) :
    (redirectionOf fs).target? f.entry.function.name = some f.split.shim.name := by
  obtain ⟨t, ht⟩ : ∃ t, (redirectionOf fs).target? f.entry.function.name = some t := by
    rw [← Option.isSome_iff_exists, Redirection.target?, List.lookup_isSome_iff]
    exact ⟨f.redirection, List.mem_reverse.mpr (List.mem_map_of_mem hf), beq_self_eq_true _⟩
  obtain ⟨before, after, hpairs, -⟩ := List.lookup_eq_some_iff.mp ht
  have hmem : (f.entry.function.name, t) ∈ fs.map PrunedFunction.redirection := by
    rw [← List.mem_reverse]
    exact hpairs ▸ List.mem_append_right _ List.mem_cons_self
  obtain ⟨g, hg, hpair⟩ := List.mem_map.mp hmem
  obtain ⟨hname, rfl⟩ := Prod.mk.inj hpair
  rw [ht, h.eq_of_name_eq hg hf hname]

theorem target?_of_not_mem {c : Name} (hc : c ∉ p.splitNames) :
    (redirectionOf fs).target? c = none := by
  rw [Redirection.target?, List.lookup_eq_none_iff]
  intro pair hpair
  obtain ⟨f, hf, rfl⟩ := List.mem_map.mp (List.mem_reverse.mp hpair)
  rw [bne_iff_ne]
  exact fun hname => hc (h.mem_splitNames_iff.mpr ⟨f, hf, hname.symm⟩)

theorem rename_redirectionOf : (redirectionOf fs).rename = p.callee (shimOf fs) := by
  funext c
  rw [Redirection.rename]
  by_cases hc : c ∈ p.splitNames
  · obtain ⟨f, hf, rfl⟩ := h.mem_splitNames_iff.mp hc
    rw [h.target?_of_mem hf, callee_of_mem hc, h.shimOf_eq hf, Option.getD_some]
  · rw [h.target?_of_not_mem hc, callee_of_not_mem hc, Option.getD_none]

theorem find?_position {before after : List Stmt} {s : Stmt} {f : PrunedFunction}
    (hroot : p.root = before ++ s :: after)
    (hf : fs.find? (·.entry.position == before.length) = some f) :
    s = .function f.entry.function ∧ ∀ g, Stmt.function g ∈ before →
      g.name ≠ f.entry.function.name := by
  have hmem := List.mem_of_find?_eq_some hf
  have hpos : f.entry.position = before.length := by simpa using List.find?_some hf
  obtain ⟨-, pre, post, hsplit, hpre, hfirst⟩ := mem_indexFrom.mp (h.mem_prunable hmem).1
  have hlength : before.length = pre.length := by omega
  obtain ⟨rfl, hrest⟩ := List.append_inj (hroot.symm.trans hsplit) hlength
  exact ⟨(List.cons.inj hrest).1, hfirst⟩

theorem not_mem_splitNames_of_find?_position {before after : List Stmt} {f : Function}
    (hroot : p.root = before ++ .function f :: after)
    (hf : fs.find? (·.entry.position == before.length) = none)
    (hbefore : ∀ g, Stmt.function g ∈ before → g.name ≠ f.name) : f.name ∉ p.splitNames := by
  intro hname
  have he : (⟨before.length, f⟩ : IndexEntry) ∈ p.index :=
    mem_indexFrom.mpr ⟨List.not_mem_nil, before, after, hroot, by simp, hbefore⟩
  have hu := (name_mem_splitNames (function?_of_mem_index he)).mp hname
  obtain ⟨g, hg, hentry⟩ := h.exists_of_mem_index he hu
  have hpos := List.find?_eq_none.mp hf g hg
  simp [hentry] at hpos

variable (hfresh : ∀ f ∈ fs, f.split.shim.name ∉ p.names)

include hfresh

omit h in
theorem not_mem_excluded {f : Function} (hf : Item.definition f ∈ Block.items p.root) :
    f.name ∉ (redirectionOf fs).excluded := by
  intro hexcluded
  obtain ⟨g, hg, hname⟩ := List.mem_map.mp hexcluded
  exact hfresh g hg (hname ▸ Block.name_mem_names hf)

theorem redirect_stmt {s : Stmt} (hs : s ∈ p.root) :
    s.redirect (redirectionOf fs) = s.mapCallees (p.callee (shimOf fs)) := by
  have hreaches : (redirectionOf fs).Reaches s.items :=
    fun g hg => not_mem_excluded hfresh (Block.items_subset_of_mem hs _ hg)
  rw [Stmt.redirect_eq_mapCallees _ s hreaches, h.rename_redirectionOf]

theorem redirect_reduced {f : PrunedFunction} (hf : f ∈ fs)
    (hroot : Stmt.function f.entry.function ∈ p.root) :
    (Stmt.function f.split.reduced).redirect (redirectionOf fs) =
      .function (f.entry.function.trim.mapCallees (p.callee (shimOf fs))) := by
  have hreaches : (redirectionOf fs).Reaches (Stmt.function f.entry.function.trim).items := by
    intro g hg
    rcases List.mem_cons.mp hg with hg | hg
    · cases hg
      exact not_mem_excluded (f := f.entry.function) hfresh (Block.definition_mem_items hroot)
    · exact not_mem_excluded hfresh (Block.items_body_subset hroot _ hg)
  rw [(h.split hf).1, Stmt.redirect_eq_mapCallees _ _ hreaches, h.rename_redirectionOf,
    Stmt.mapCallees_function]

omit h hfresh in
theorem redirect_shim {f : PrunedFunction} (hf : f ∈ fs) :
    (Stmt.function f.split.shim).redirect (redirectionOf fs) = .function f.split.shim := by
  have hexcluded : f.split.shim.name ∈ (redirectionOf fs).excluded := List.mem_map_of_mem hf
  simp only [Stmt.redirect, if_pos hexcluded]

theorem redirect_expandAt_function {before after : List Stmt} {f : Function}
    (hroot : p.root = before ++ .function f :: after) {seen : List Name}
    (hseen : ∀ c, c ∈ seen ↔ ∃ g, Stmt.function g ∈ before ∧ g.name = c) :
    Block.redirect (redirectionOf fs) (expandAt fs (.function f) before.length) =
      if f.name ∈ seen then [.function (f.mapCallees (p.callee (shimOf fs)))]
      else (p.pieces (shimOf fs) f).map .function := by
  have hmem : Stmt.function f ∈ p.root := hroot ▸ List.mem_append_right _ List.mem_cons_self
  cases hfind : fs.find? (·.entry.position == before.length) with
  | some g =>
      obtain ⟨hs, hbefore⟩ := h.find?_position hroot hfind
      cases Stmt.function.inj hs
      have hg := List.mem_of_find?_eq_some hfind
      have hnew : g.entry.function.name ∉ seen := by
        rw [hseen]
        exact fun ⟨k, hk, hname⟩ => hbefore k hk hname
      rw [if_neg hnew, pieces, if_pos (h.mem_splitNames_iff.mpr ⟨g, hg, rfl⟩), h.shimOf_eq hg,
        expandAt_of_some hfind, Block.redirect, Block.redirect, Block.redirect,
        h.redirect_reduced hfresh hg hmem, redirect_shim hg, List.map_cons, List.map_cons,
        List.map_nil]
  | none =>
      rw [expandAt_of_none hfind, Block.redirect, Block.redirect, h.redirect_stmt hfresh hmem,
        Stmt.mapCallees_function]
      by_cases hnew : f.name ∈ seen
      · rw [if_pos hnew]
      · have hu := h.not_mem_splitNames_of_find?_position hroot hfind
          fun g hg hname => hnew ((hseen _).mpr ⟨g, hg, hname⟩)
        rw [if_neg hnew, pieces, if_neg hu, List.map_cons, List.map_nil]

theorem redirect_expandAt_of_ne {before after : List Stmt} {s : Stmt} (hs : ∀ f, s ≠ .function f)
    (hroot : p.root = before ++ s :: after) :
    Block.redirect (redirectionOf fs) (expandAt fs s before.length) =
      [s.mapCallees (p.callee (shimOf fs))] := by
  have hmem : s ∈ p.root := hroot ▸ List.mem_append_right _ List.mem_cons_self
  cases hfind : fs.find? (·.entry.position == before.length) with
  | some g => exact absurd (h.find?_position hroot hfind).1 (hs _)
  | none =>
      rw [expandAt_of_none hfind, Block.redirect, Block.redirect, h.redirect_stmt hfresh hmem]

/-- The statements from some place on, once the splits are in place and the calls redirected. -/
theorem redirect_expandAt (before ss : List Stmt) (hroot : p.root = before ++ ss)
    (seen : List Name) (hseen : ∀ c, c ∈ seen ↔ ∃ g, Stmt.function g ∈ before ∧ g.name = c) :
    Block.redirect (redirectionOf fs)
        ((ss.zipIdx before.length).flatMap fun x => expandAt fs x.1 x.2) =
      p.expandFrom (shimOf fs) seen ss := by
  induction ss using rootInduction generalizing before seen with
  | nil => rfl
  | function f ss ih =>
      have hrest := ih (before ++ [.function f]) (by simp [hroot])
      simp only [List.length_append, List.length_singleton, List.mem_append, List.mem_singleton,
        Stmt.function.injEq] at hrest
      rw [List.zipIdx_cons, List.flatMap_cons, Block.redirect_append, expandFrom_function,
        h.redirect_expandAt_function hfresh hroot hseen]
      by_cases hnew : f.name ∈ seen
      · rw [if_pos hnew, if_pos hnew, hrest seen (by grind), List.singleton_append]
      · rw [if_neg hnew, if_neg hnew, hrest (f.name :: seen) (by grind)]
  | other s ss hs ih =>
      have hrest := ih (before ++ [s]) (by simp [hroot]) seen
      simp only [List.length_append, List.length_singleton, List.mem_append,
        List.mem_singleton] at hrest
      rw [List.zipIdx_cons, List.flatMap_cons, Block.redirect_append, hrest (by grind),
        h.redirect_expandAt_of_ne hfresh hs hroot, expandFrom_of_ne _ _ hs, List.singleton_append]

theorem redirect_expandSplits :
    (Program.mk (expandSplits fs p.root)).redirect (redirectionOf fs) =
      p.expansion (shimOf fs) := by
  have hroot := h.redirect_expandAt hfresh [] p.root rfl [] (by simp)
  rw [Program.redirect, expandSplits_eq, expansion, ← hroot, List.length_nil]

end Program.SplitInto

/-- The splits of a program have names that are new and different, whatever names the supply has
issued so far, as long as the names of the program are in use. -/
theorem Program.splitInto_splitPrunable {p : Program} (names : NameSupply)
    (hnames : ∀ x ∈ p.names, x ∈ names.used) :
    p.SplitInto (p.splitPrunable names).1 ∧
      ((p.splitPrunable names).1.flatMap (·.split.shim.heading)).Nodup ∧
      ∀ x ∈ (p.splitPrunable names).1.flatMap (·.split.shim.heading), x ∉ p.names := by
  obtain ⟨xs, ⟨hfs, rfl⟩, hnodup, hnew, -⟩ := p.splitPrunable_issues names
  exact ⟨hfs, hnodup, fun x hx hp => hnew x hx (hnames x hp)⟩

theorem shimName_not_mem {p : Program} {fs : List PrunedFunction}
    (hfresh : ∀ x ∈ fs.flatMap (·.split.shim.heading), x ∉ p.names) :
    ∀ f ∈ fs, f.split.shim.name ∉ p.names :=
  fun f hf => hfresh _ (List.mem_flatMap.mpr ⟨f, hf, List.mem_cons_self⟩)

theorem Program.prune_eq_expansion {p : Program} {names : NameSupply}
    (hnames : ∀ x ∈ p.names, x ∈ names.used) :
    ∃ shim, p.Shims shim ∧ p.NumbersShims shim ∧
      (p.prune names).1.program = p.expansion shim := by
  obtain ⟨hfs, hnodup, hfresh⟩ := splitInto_splitPrunable names hnames
  exact ⟨_, hfs.shims hnodup hfresh, hfs.numbersShims,
    hfs.redirect_expandSplits (shimName_not_mem hfresh)⟩

end YulPruner
