import YulPruner.Proofs.Pruning.Redirected
import YulPruner.Proofs.Syntax.Shape
import Mathlib.Data.List.Nodup

namespace YulPruner

section Redirect

variable (r : Redirection)

theorem Expr.shape_redirect (e : Expr) : (e.redirect r).shape = e.shape := by
  rw [Expr.redirect_eq_mapCallees, Expr.shape_mapCallees]

theorem Expr.callees_redirect (e : Expr) : (e.redirect r).callees = e.callees.map r.rename := by
  rw [Expr.redirect_eq_mapCallees, Expr.callees_mapCallees]

theorem Expr.redirected_eq_countP_callees (e : Expr) :
    e.redirected r = e.callees.countP fun c => (r.target? c).isSome := by
  rw [Expr.redirected_eq_countP r 1, callees, List.countP_map]
  rfl

mutual

theorem Stmt.shape_redirect : ∀ s : Stmt,
    (s.redirect r).shape r.excluded = s.shape r.excluded
  | .expression e => by rw [Stmt.redirect, Stmt.shape, e.shape_redirect, Stmt.shape]
  | .assignment _ value => by rw [Stmt.redirect, Stmt.shape, value.shape_redirect, Stmt.shape]
  | .declaration _ none => rfl
  | .declaration _ (some value) => by
      simp only [Stmt.redirect, Stmt.shape, Option.map_some, value.shape_redirect]
  | .function ⟨name, _, _, body⟩ => by
      rw [Stmt.redirect, Stmt.shape, Stmt.shape]
      by_cases hname : name ∈ r.excluded
      · simp only [if_pos hname]
      · simp only [if_neg hname, Block.shape_redirect body]
  | .conditional condition body => by
      rw [Stmt.redirect, Stmt.shape, condition.shape_redirect, Block.shape_redirect body,
        Stmt.shape]
  | .switch scrutinee cases => by
      rw [Stmt.redirect, Stmt.shape, scrutinee.shape_redirect, Case.shape_redirectAll cases,
        Stmt.shape]
  | .loop pre condition post body => by
      rw [Stmt.redirect, Stmt.shape, Block.shape_redirect pre, condition.shape_redirect,
        Block.shape_redirect post, Block.shape_redirect body, Stmt.shape]
  | .jump _ => rfl
  | .block body => by rw [Stmt.redirect, Stmt.shape, Block.shape_redirect body, Stmt.shape]

theorem Block.shape_redirect : ∀ b : Block,
    Block.shape r.excluded (Block.redirect r b) = Block.shape r.excluded b
  | [] => rfl
  | s :: ss => by
      rw [Block.redirect, Block.shape, Stmt.shape_redirect s, Block.shape_redirect ss, Block.shape]

theorem Case.shape_redirectAll : ∀ cases : List Case,
    Case.shapeAll r.excluded (Case.redirectAll r cases) = Case.shapeAll r.excluded cases
  | [] => rfl
  | ⟨_, body⟩ :: cases => by
      rw [Case.redirectAll, Case.shapeAll, Block.shape_redirect body, Case.shape_redirectAll cases,
        Case.shapeAll]

end

mutual

theorem Stmt.openCallees_redirect : ∀ s : Stmt,
    (s.redirect r).openCallees r.excluded = (s.openCallees r.excluded).map r.rename
  | .expression e => by rw [Stmt.redirect, Stmt.openCallees, e.callees_redirect, Stmt.openCallees]
  | .assignment _ value => by
      rw [Stmt.redirect, Stmt.openCallees, value.callees_redirect, Stmt.openCallees]
  | .declaration _ none => rfl
  | .declaration _ (some value) => by
      simp only [Stmt.redirect, Stmt.openCallees, Option.map_some, Option.toList_some,
        List.flatMap_singleton, value.callees_redirect]
  | .function ⟨name, _, _, body⟩ => by
      rw [Stmt.redirect, Stmt.openCallees, Stmt.openCallees]
      by_cases hname : name ∈ r.excluded
      · simp only [if_pos hname, List.map_nil]
      · simp only [if_neg hname, Block.openCallees_redirect body]
  | .conditional condition body => by
      rw [Stmt.redirect, Stmt.openCallees, condition.callees_redirect,
        Block.openCallees_redirect body, Stmt.openCallees, List.map_append]
  | .switch scrutinee cases => by
      rw [Stmt.redirect, Stmt.openCallees, scrutinee.callees_redirect,
        Case.openCallees_redirectAll cases, Stmt.openCallees, List.map_append]
  | .loop pre condition post body => by
      rw [Stmt.redirect, Stmt.openCallees, Block.openCallees_redirect pre,
        condition.callees_redirect, Block.openCallees_redirect post,
        Block.openCallees_redirect body, Stmt.openCallees, List.map_append, List.map_append,
        List.map_append]
  | .jump _ => rfl
  | .block body => by
      rw [Stmt.redirect, Stmt.openCallees, Block.openCallees_redirect body, Stmt.openCallees]

theorem Block.openCallees_redirect : ∀ b : Block,
    Block.openCallees r.excluded (Block.redirect r b) =
      (Block.openCallees r.excluded b).map r.rename
  | [] => rfl
  | s :: ss => by
      rw [Block.redirect, Block.openCallees, Stmt.openCallees_redirect s,
        Block.openCallees_redirect ss, Block.openCallees, List.map_append]

theorem Case.openCallees_redirectAll : ∀ cases : List Case,
    Case.openCallees r.excluded (Case.redirectAll r cases) =
      (Case.openCallees r.excluded cases).map r.rename
  | [] => rfl
  | ⟨_, body⟩ :: cases => by
      rw [Case.redirectAll, Case.openCallees, Block.openCallees_redirect body,
        Case.openCallees_redirectAll cases, Case.openCallees, List.map_append]

end

mutual

theorem Stmt.redirected_eq_countP : ∀ s : Stmt,
    s.redirected r = (s.openCallees r.excluded).countP fun c => (r.target? c).isSome
  | .expression e => by rw [Stmt.redirected, e.redirected_eq_countP_callees, Stmt.openCallees]
  | .assignment _ value => by
      rw [Stmt.redirected, value.redirected_eq_countP_callees, Stmt.openCallees]
  | .declaration _ none => rfl
  | .declaration _ (some value) => by
      rw [Stmt.redirected, Option.map_some, Option.getD_some, value.redirected_eq_countP_callees,
        Stmt.openCallees, Option.toList_some, List.flatMap_singleton]
  | .function ⟨name, _, _, body⟩ => by
      rw [Stmt.redirected, Stmt.openCallees]
      by_cases hname : name ∈ r.excluded
      · rw [if_pos hname, if_pos hname, List.countP_nil]
      · rw [if_neg hname, if_neg hname, Block.redirected_eq_countP body]
  | .conditional condition body => by
      rw [Stmt.redirected, condition.redirected_eq_countP_callees, Block.redirected_eq_countP body,
        Stmt.openCallees, List.countP_append]
  | .switch scrutinee cases => by
      rw [Stmt.redirected, scrutinee.redirected_eq_countP_callees,
        Case.redirectedAll_eq_countP cases, Stmt.openCallees, List.countP_append]
  | .loop pre condition post body => by
      rw [Stmt.redirected, Block.redirected_eq_countP pre, condition.redirected_eq_countP_callees,
        Block.redirected_eq_countP post, Block.redirected_eq_countP body, Stmt.openCallees,
        List.countP_append, List.countP_append, List.countP_append, Nat.add_assoc, Nat.add_assoc]
  | .jump _ => rfl
  | .block body => by rw [Stmt.redirected, Block.redirected_eq_countP body, Stmt.openCallees]

theorem Block.redirected_eq_countP : ∀ b : Block,
    Block.redirected r b = (Block.openCallees r.excluded b).countP fun c => (r.target? c).isSome
  | [] => rfl
  | s :: ss => by
      rw [Block.redirected, Stmt.redirected_eq_countP s, Block.redirected_eq_countP ss,
        Block.openCallees, List.countP_append]

theorem Case.redirectedAll_eq_countP : ∀ cases : List Case,
    Case.redirectedAll r cases =
      (Case.openCallees r.excluded cases).countP fun c => (r.target? c).isSome
  | [] => rfl
  | ⟨_, body⟩ :: cases => by
      rw [Case.redirectedAll, Block.redirected_eq_countP body, Case.redirectedAll_eq_countP cases,
        Case.openCallees, List.countP_append]

end

end Redirect

namespace Redirection

variable {r : Redirection} {c d : Name}

theorem mem_targets (h : r.target? c = some d) : (c, d) ∈ r.targets := by
  obtain ⟨before, after, htargets, -⟩ := List.lookup_eq_some_iff.mp h
  rw [← List.mem_reverse, htargets]
  exact List.mem_append_right _ List.mem_cons_self

theorem exists_target? (h : (c, d) ∈ r.targets) : ∃ t, r.target? c = some t := by
  rw [← Option.isSome_iff_exists, target?, List.lookup_isSome_iff]
  exact ⟨(c, d), List.mem_reverse.mpr h, beq_self_eq_true _⟩

def Injective (r : Redirection) : Prop :=
  ∀ c c' d, r.target? c = some d → r.target? c' = some d → c = c'

theorem injective_of_nodup (h : (r.targets.map Prod.snd).Nodup) : r.Injective :=
  fun _ _ _ hc hc' => congrArg Prod.fst
    (List.inj_on_of_nodup_map h (mem_targets hc) (mem_targets hc') rfl)

/-- The redirection that leads back, from each new callee to the old one. -/
def inverse (r : Redirection) : Redirection where
  targets := (r.targets.filter fun (c, d) => r.target? c == some d).map Prod.swap
  excluded := r.excluded

theorem mem_targets_inverse : (d, c) ∈ r.inverse.targets ↔ r.target? c = some d := by
  simp only [inverse, List.mem_map, List.mem_filter, beq_iff_eq]
  constructor
  · rintro ⟨⟨c', d'⟩, ⟨-, htarget⟩, hswap⟩
    cases hswap
    exact htarget
  · exact fun h => ⟨(c, d), ⟨mem_targets h, h⟩, rfl⟩

theorem target?_inverse (hinj : r.Injective) :
    r.inverse.target? d = some c ↔ r.target? c = some d := by
  constructor
  · exact fun h => mem_targets_inverse.mp (mem_targets h)
  · intro h
    obtain ⟨c', hc'⟩ := exists_target? (mem_targets_inverse.mpr h)
    rw [hc', hinj c' c d (mem_targets_inverse.mp (mem_targets hc')) h]

theorem rename_of_some (h : r.target? c = some d) : r.rename c = d := by
  rw [rename, h, Option.getD_some]

theorem rename_of_none (h : r.target? c = none) : r.rename c = c := by
  rw [rename, h, Option.getD_none]

/-- A callee that is nobody's target goes back to itself, by an entry of the inverse if it was
redirected and by none if it was not. -/
theorem target?_inverse_rename (hinj : r.Injective) (hc : ∀ c', r.target? c' ≠ some c) :
    r.inverse.target? (r.rename c) = (r.target? c).map fun _ => c := by
  cases htarget : r.target? c with
  | some d => rw [rename_of_some htarget, (target?_inverse hinj).mpr htarget, Option.map_some]
  | none =>
      rw [rename_of_none htarget, Option.map_none, Option.eq_none_iff_forall_ne_some]
      exact fun c' h => hc c' ((target?_inverse hinj).mp h)

theorem rename_inverse_rename (hinj : r.Injective) (hc : ∀ c', r.target? c' ≠ some c) :
    r.inverse.rename (r.rename c) = c := by
  rw [rename, target?_inverse_rename hinj hc]
  cases h : r.target? c with
  | some d => rfl
  | none => exact rename_of_none h

end Redirection

namespace Program

def shape (excluded : List Name) (p : Program) : Block := Block.shape excluded p.root

def openCallees (excluded : List Name) (p : Program) : List Name :=
  Block.openCallees excluded p.root

variable (p : Program) (r : Redirection)

/-- The result of a redirection is the program of the same shape with all open callees renamed. -/
theorem eq_redirect_iff (q : Program) :
    q = p.redirect r ↔ q.shape r.excluded = p.shape r.excluded ∧
      q.openCallees r.excluded = (p.openCallees r.excluded).map r.rename := by
  have hshape := Block.shape_redirect r p.root
  have hcallees := Block.openCallees_redirect r p.root
  constructor
  · rintro rfl
    exact ⟨hshape, hcallees⟩
  · rintro ⟨hq, hqcallees⟩
    have hroot := Block.eq_of_shape (hq.trans hshape.symm) (hqcallees.trans hcallees.symm)
    exact congrArg Program.mk hroot

variable {p r}

section Inverse

variable (hinj : r.Injective)
  (hfresh : ∀ c d, r.target? c = some d → d ∉ p.openCallees r.excluded)

include hinj hfresh

theorem redirect_inverse : (p.redirect r).redirect r.inverse = p := by
  symm
  rw [eq_redirect_iff]
  obtain ⟨hshape, hcallees⟩ := (p.eq_redirect_iff r _).mp rfl
  refine ⟨hshape.symm, ?_⟩
  have hback : ∀ c ∈ p.openCallees r.excluded, r.inverse.rename (r.rename c) = c :=
    fun c hc => Redirection.rename_inverse_rename hinj fun c' h => hfresh c' c h hc
  calc p.openCallees r.excluded
      = (p.openCallees r.excluded).map fun c => r.inverse.rename (r.rename c) :=
        ((List.map_congr_left hback).trans (List.map_id _)).symm
    _ = ((p.redirect r).openCallees r.excluded).map r.inverse.rename := by
        rw [hcallees, List.map_map]
        rfl

theorem redirected_inverse : (p.redirect r).redirected r.inverse = p.redirected r := by
  obtain ⟨-, hcallees⟩ := (p.eq_redirect_iff r _).mp rfl
  have hcount : (p.redirect r).redirected r.inverse =
      ((p.redirect r).openCallees r.excluded).countP fun c => (r.inverse.target? c).isSome :=
    Block.redirected_eq_countP r.inverse _
  rw [hcount, hcallees, List.countP_map, redirected, Block.redirected_eq_countP r]
  refine List.countP_congr fun c hc => ?_
  have htarget := Redirection.target?_inverse_rename hinj fun c' h => hfresh c' c h hc
  rw [Function.comp_apply, htarget, Option.isSome_map]

end Inverse

/-- Redirecting calls renames the callees of all open calls at once, counts those with a new callee
and changes nothing else. If no two callees become the same one and no open call had one of the new
callees before, the inverse redirection counts as many calls and brings the program back. -/
theorem redirection_renames_and_reverses (p : Program) (r : Redirection) :
    (∀ q : Program, q = p.redirect r ↔ q.shape r.excluded = p.shape r.excluded ∧
      q.openCallees r.excluded = (p.openCallees r.excluded).map fun c => (r.target? c).getD c) ∧
    p.redirected r = (p.openCallees r.excluded).countP (fun c => (r.target? c).isSome) ∧
    (r.Injective → (∀ c d, r.target? c = some d → d ∉ p.openCallees r.excluded) →
      (∀ c d, r.inverse.target? d = some c ↔ r.target? c = some d) ∧
      r.inverse.excluded = r.excluded ∧
      (p.redirect r).redirected r.inverse = p.redirected r ∧
      (p.redirect r).redirect r.inverse = p) := by
  refine ⟨p.eq_redirect_iff r, Block.redirected_eq_countP r p.root, fun hinj hfresh => ?_⟩
  exact ⟨fun c d => Redirection.target?_inverse hinj, rfl, redirected_inverse hinj hfresh,
    redirect_inverse hinj hfresh⟩

def chain : Redirection := ⟨[("f", "g"), ("g", "h")], ["kept"]⟩

def nestedCalls : Program where
  root := [.function ⟨"kept", [], [],
      [.function ⟨"inner", [], [], [.expression (.call "g" [])]⟩, .expression (.call "f" [])]⟩,
    .conditional (.call "f" [.call "f" []]) [.expression (.call "log" [])]]

theorem redirection_renames_and_reverses_chain :
    chain.Injective ∧ nestedCalls.redirected chain = 2 ∧
      (nestedCalls.redirect chain).openCallees ["kept"] = ["g", "g", "log"] ∧
      (nestedCalls.redirect chain).redirected chain.inverse = 2 ∧
      (nestedCalls.redirect chain).redirect chain.inverse = nestedCalls := by
  have hinj : chain.Injective := Redirection.injective_of_nodup (by decide)
  have htargets : ∀ pair ∈ chain.targets, pair.2 ∉ nestedCalls.openCallees chain.excluded := by
    decide
  have hfresh : ∀ c d, chain.target? c = some d → d ∉ nestedCalls.openCallees chain.excluded :=
    fun c d h => htargets (c, d) (Redirection.mem_targets h)
  obtain ⟨hresult, hcount, hback⟩ := redirection_renames_and_reverses nestedCalls chain
  obtain ⟨-, hcallees⟩ := (hresult _).mp rfl
  obtain ⟨-, -, hsame, hinverse⟩ := hback hinj hfresh
  exact ⟨hinj, hcount, hcallees, hsame.trans hcount, hinverse⟩

end Program

end YulPruner
