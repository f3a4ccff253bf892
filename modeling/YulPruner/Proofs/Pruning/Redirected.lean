import YulPruner.Proofs.Pruning.Prune

namespace YulPruner

/-- The callee of the call is renamed. -/
def Redirection.reroutes (r : Redirection) (site : CallSite) : Bool :=
  (r.target? site.callee).isSome

section Count

variable (r : Redirection)

mutual

theorem Expr.redirected_eq_countP (bound : Nat) : ∀ e : Expr,
    e.redirected r = (e.callSites bound).countP r.reroutes
  | .var _ => rfl
  | .literal _ => rfl
  | .call f arguments => by
      rw [Expr.redirected, Expr.redirectedAll_eq_countP arguments, Expr.callSites,
        List.countP_cons, Nat.add_comm]
      rfl

theorem Expr.redirectedAll_eq_countP : ∀ es : List Expr,
    Expr.redirectedAll r es = (Expr.callSitesAll es).countP r.reroutes
  | [] => rfl
  | e :: es => by
      rw [Expr.redirectedAll, Expr.redirected_eq_countP 1 e, Expr.redirectedAll_eq_countP es,
        Expr.callSitesAll, List.countP_append]

end

/-- The number of calls among the items that the redirection renames. -/
def Redirection.count (items : List Item) : Nat :=
  (items.flatMap Item.callSites).countP r.reroutes

theorem Redirection.count_append (is js : List Item) :
    r.count (is ++ js) = r.count is + r.count js := by
  rw [count, List.flatMap_append, List.countP_append, count, count]

theorem Redirection.count_cons (item : Item) (items : List Item) :
    r.count (item :: items) = item.callSites.countP r.reroutes + r.count items := by
  rw [count, List.flatMap_cons, List.countP_append, count]

theorem Redirection.count_value (e : Expr) (bound : Nat) (items : List Item) :
    r.count (.value e bound :: items) = e.redirected r + r.count items := by
  rw [r.count_cons, Item.callSites, Expr.redirected_eq_countP r bound]

theorem Redirection.count_cons_of_callSites {item : Item} (h : item.callSites = [])
    (items : List Item) : r.count (item :: items) = r.count items := by
  rw [r.count_cons, h, List.countP_nil, Nat.zero_add]

mutual

theorem Stmt.redirected_eq_count : ∀ s : Stmt, r.Reaches s.items → s.redirected r = r.count s.items
  | .expression e, _ => by rw [Stmt.redirected, Stmt.items, r.count_value]; rfl
  | .assignment _ value, _ => by
      rw [Stmt.redirected, Stmt.items, r.count_cons_of_callSites rfl, r.count_value]; rfl
  | .declaration _ none, _ => rfl
  | .declaration _ (some value), _ => by
      rw [Stmt.redirected, Stmt.items, r.count_cons_of_callSites rfl, Option.map_some,
        Option.map_some, Option.toList_some, r.count_value]
      rfl
  | .function ⟨name, _, _, body⟩, h => by
      have hname : name ∉ r.excluded := h _ List.mem_cons_self
      have hbody := Block.redirected_eq_count body (h.mono fun _ hi => List.mem_cons_of_mem _ hi)
      rw [Stmt.redirected, if_neg hname, hbody, Stmt.items, r.count_cons_of_callSites rfl]
  | .conditional _ body, h => by
      have hbody := Block.redirected_eq_count body (h.mono fun _ hi => by simp [Stmt.items, hi])
      rw [Stmt.redirected, hbody, Stmt.items, r.count_cons_of_callSites rfl, r.count_value]
  | .switch _ cases, h => by
      have hcases := Case.redirectedAll_eq_count cases (h.mono fun _ hi => by simp [Stmt.items, hi])
      rw [Stmt.redirected, hcases, Stmt.items, r.count_cons_of_callSites rfl, r.count_value]
  | .loop pre _ post body, h => by
      have hpre := Block.redirected_eq_count pre (h.mono fun _ hi => by simp [Stmt.items, hi])
      have hpost := Block.redirected_eq_count post (h.mono fun _ hi => by simp [Stmt.items, hi])
      have hbody := Block.redirected_eq_count body (h.mono fun _ hi => by simp [Stmt.items, hi])
      rw [Stmt.redirected, hpre, hpost, hbody, Stmt.items, List.cons_append,
        r.count_cons_of_callSites rfl, r.count_append, r.count_value, r.count_append]
      omega
  | .jump _, _ => rfl
  | .block body, h => by rw [Stmt.redirected, Block.redirected_eq_count body h, Stmt.items]

/-- Where no definition is excluded, the redirection counts every call that it renames. -/
theorem Block.redirected_eq_count : ∀ b : Block, r.Reaches (Block.items b) →
    Block.redirected r b = r.count (Block.items b)
  | [], _ => rfl
  | s :: ss, h => by
      have hs := Stmt.redirected_eq_count s
        (h.mono fun _ hi => List.mem_append_left (Block.items ss) hi)
      have hss := Block.redirected_eq_count ss
        (h.mono fun _ hi => List.mem_append_right s.items hi)
      rw [Block.redirected, hs, hss, Block.items, r.count_append]

theorem Case.redirectedAll_eq_count : ∀ cases : List Case, r.Reaches (Case.items cases) →
    Case.redirectedAll r cases = r.count (Case.items cases)
  | [], _ => rfl
  | ⟨_, body⟩ :: cases, h => by
      have hbody := Block.redirected_eq_count body
        (h.mono fun _ hi => List.mem_append_left (Case.items cases) hi)
      have hcases := Case.redirectedAll_eq_count cases
        (h.mono fun _ hi => List.mem_append_right (Block.items body) hi)
      rw [Case.redirectedAll, hbody, hcases, Case.items, r.count_append]

end

theorem Block.redirected_append (a b : Block) :
    Block.redirected r (a ++ b) = Block.redirected r a + Block.redirected r b := by
  induction a with
  | nil => exact (Nat.zero_add _).symm
  | cons s ss ih => rw [List.cons_append, Block.redirected, ih, Block.redirected, Nat.add_assoc]

end Count

namespace Program.SplitInto

variable {p : Program} {fs : List PrunedFunction} (h : p.SplitInto fs)

include h

theorem reroutes_iff (site : CallSite) :
    (redirectionOf fs).reroutes site = true ↔ site.callee ∈ p.splitNames := by
  rw [Redirection.reroutes]
  by_cases hc : site.callee ∈ p.splitNames
  · obtain ⟨f, hf, hname⟩ := h.mem_splitNames_iff.mp hc
    rw [← hname, h.target?_of_mem hf]
    exact iff_of_true rfl (hname ▸ hc)
  · rw [h.target?_of_not_mem hc]
    exact iff_of_false Bool.false_ne_true hc

omit h in
theorem redirected_shim {f : PrunedFunction} (hf : f ∈ fs) :
    (Stmt.function f.split.shim).redirected (redirectionOf fs) = 0 := by
  have hexcluded : f.split.shim.name ∈ (redirectionOf fs).excluded := List.mem_map_of_mem hf
  simp only [Stmt.redirected, if_pos hexcluded]

theorem redirected_expandAt {before after : List Stmt} {s : Stmt}
    (hroot : p.root = before ++ s :: after) :
    Block.redirected (redirectionOf fs) (expandAt fs s before.length) =
      s.redirected (redirectionOf fs) := by
  cases hfind : fs.find? (·.entry.position == before.length) with
  | some f =>
      -- The reduced function has the name and the body of the function.
      have hf := List.mem_of_find?_eq_some hfind
      rw [expandAt_of_some hfind, Block.redirected, Block.redirected, redirected_shim hf,
        Block.redirected, (h.split hf).1, (h.find?_position hroot hfind).1]
      rfl
  | none => rw [expandAt_of_none hfind, Block.redirected, Block.redirected, Nat.add_zero]

theorem redirected_expandAt_from (before ss : List Stmt) (hroot : p.root = before ++ ss) :
    Block.redirected (redirectionOf fs)
        ((ss.zipIdx before.length).flatMap fun x => expandAt fs x.1 x.2) =
      Block.redirected (redirectionOf fs) ss := by
  induction ss generalizing before with
  | nil => rfl
  | cons s ss ih =>
      have hrest := ih (before ++ [s]) (by simp [hroot])
      rw [List.length_append, List.length_singleton] at hrest
      rw [List.zipIdx_cons, List.flatMap_cons, Block.redirected_append,
        h.redirected_expandAt hroot, hrest, Block.redirected]

theorem redirected_expandSplits (hfresh : ∀ f ∈ fs, f.split.shim.name ∉ p.names) :
    (Program.mk (expandSplits fs p.root)).redirected (redirectionOf fs) =
      (Block.callSites p.root).countP (·.callee ∈ p.splitNames) := by
  have hsplits := h.redirected_expandAt_from [] p.root rfl
  have hroot := Block.redirected_eq_count (redirectionOf fs) p.root
    fun f hf => not_mem_excluded hfresh hf
  rw [List.length_nil] at hsplits
  rw [Program.redirected, expandSplits_eq, hsplits, hroot, Redirection.count]
  refine List.countP_congr fun site _ => ?_
  rw [h.reroutes_iff, decide_eq_true_iff]

end Program.SplitInto

end YulPruner
