import YulPruner.Proofs.Pruning.Expansion
import YulPruner.Proofs.Syntax.WellFormed

namespace YulPruner

section Names

theorem isWord_numbered {hint : Name} (h : IsWord hint.toList) (n : Nat) :
    IsWord (numbered hint n).toList := by
  obtain ⟨c, cs, hhint, hc, hcs⟩ := h
  refine ⟨c, cs ++ '_' :: n.repr.toList, ?_, hc, ?_⟩
  · simp [numbered, hhint]
  · intro d hd
    rcases List.mem_append.mp hd with hd | hd
    · exact hcs d hd
    rcases List.mem_cons.mp hd with rfl | hd
    · decide
    · rw [Nat.toList_repr] at hd
      have hdigit := Nat.isDigit_of_mem_toDigits (by decide) (by decide) hd
      exact Or.inr (Or.inl hdigit)

theorem Keyword.underscore_not_mem (k : Keyword) : '_' ∉ k.word.toList := by
  cases k <;> decide

theorem isIdentifier_of_isNumbered {hint x : Name} (h : IsIdentifier hint)
    (hx : IsNumbered hint x) : IsIdentifier x := by
  obtain ⟨n, rfl⟩ := hx
  refine ⟨isWord_numbered h.isWord n, fun k hk => ?_⟩
  apply k.underscore_not_mem
  rw [hk]
  simp [numbered]

theorem Item.names_mapCallees {ρ : Name → Name} {item : Item} {x : Name}
    (h : x ∈ (item.mapCallees ρ).names) : x ∈ item.names ∨ ∃ c ∈ item.names, x = ρ c := by
  cases item with
  | value e b =>
      simp only [Item.mapCallees, Item.names, List.mem_append, Expr.variables_mapCallees,
        Expr.callSites_mapCallees, List.map_map, List.mem_map] at h
      rcases h with hx | ⟨site, hsite, rfl⟩
      · exact Or.inl (List.mem_append_left _ hx)
      · exact Or.inr ⟨site.callee, List.mem_append_right _ (List.mem_map_of_mem hsite), rfl⟩
  | definition | declaration | assignment | conditional | switch | loop => exact Or.inl h

theorem Stmt.names_mapCallees {ρ : Name → Name} {s : Stmt} {x : Name}
    (h : x ∈ Block.names [s.mapCallees ρ]) :
    x ∈ Block.names [s] ∨ ∃ c ∈ Block.names [s], x = ρ c := by
  rw [Block.names_singleton, Stmt.items_mapCallees, List.flatMap_map] at h
  obtain ⟨item, hitem, hx⟩ := List.mem_flatMap.mp h
  rw [Block.names_singleton]
  rcases Item.names_mapCallees hx with hx | ⟨c, hc, rfl⟩
  · exact Or.inl (List.mem_flatMap.mpr ⟨item, hitem, hx⟩)
  · exact Or.inr ⟨c, List.mem_flatMap.mpr ⟨item, hitem, hc⟩, rfl⟩

theorem Block.mem_names_function {f : Function} {x : Name} :
    x ∈ Block.names [.function f] ↔ x ∈ f.heading ∨ x ∈ Block.names f.body := by
  rw [Block.names_singleton, Stmt.items, List.flatMap_cons, List.mem_append]
  rfl

theorem Function.names_trim {f : Function} {x : Name} (h : x ∈ Block.names [.function f.trim]) :
    x ∈ Block.names [.function f] := by
  rw [Block.mem_names_function] at h ⊢
  refine h.imp_left fun hx => ?_
  have hsub : f.trim.heading.Sublist f.heading :=
    (List.filter_sublist.cons_cons f.name).append List.filter_sublist
  exact hsub.subset hx

theorem Item.mem_names_call_vars {f x : Name} {xs : List Name} {b : Nat} :
    x ∈ (Item.value (.call f (xs.map .var)) b).names ↔ x = f ∨ x ∈ xs := by
  simp [Item.names, Expr.variables, Expr.callSites, Expr.variablesAll_map_var,
    Expr.callSitesAll_map_var, or_comm]

theorem Function.IsShim.names {f g : Function} (h : g.IsShim f) {x : Name}
    (hx : x ∈ Block.names [.function g]) : x = f.name ∨ x ∈ g.heading := by
  have hparameters : x ∈ f.mentioned f.parameters g.parameters → x ∈ g.heading := fun hx =>
    List.mem_append_left _ (List.mem_cons_of_mem _ ((f.mentioned_sublist _ _).subset hx))
  have hreturns : x ∈ f.mentioned f.returns g.returns → x ∈ g.heading := fun hx =>
    List.mem_append_right _ ((f.mentioned_sublist _ _).subset hx)
  rw [Block.mem_names_function, h.body, Block.names_singleton, Function.forward] at hx
  rcases hx with hx | hx
  · exact Or.inr hx
  by_cases hret : f.trim.returns = []
  · rw [if_pos hret, Stmt.items, List.flatMap_singleton, Item.mem_names_call_vars] at hx
    exact hx.imp_right hparameters
  · rw [if_neg hret, Stmt.items, List.flatMap_cons, List.flatMap_singleton, List.mem_append,
      Item.mem_names_call_vars] at hx
    rcases hx with hx | hx
    · exact Or.inr (hreturns hx)
    · exact hx.imp_right hparameters

end Names

section Shape

variable (ρ : Name → Name)

theorem Case.mapCalleesAll_eq_nil {cases : List Case} :
    Case.mapCalleesAll ρ cases = [] ↔ cases = [] := by
  cases cases <;> simp [Case.mapCalleesAll]

mutual

theorem Stmt.isShaped_mapCallees : ∀ s : Stmt, (s.mapCallees ρ).IsShaped ↔ s.IsShaped
  | .expression e => by cases e <;> simp [Stmt.mapCallees, Stmt.IsShaped, Expr.mapCallees]
  | .assignment _ _ => Iff.rfl
  | .declaration _ _ => Iff.rfl
  | .function ⟨_, _, _, body⟩ => Block.isShaped_mapCallees body
  | .conditional _ body => Block.isShaped_mapCallees body
  | .switch _ cases => by
      have hcases := Case.areShaped_mapCallees cases
      simp [Stmt.mapCallees, Stmt.IsShaped, Case.mapCalleesAll_eq_nil, hcases]
  | .loop pre _ post body => by
      have hpre := Block.isShaped_mapCallees pre
      have hpost := Block.isShaped_mapCallees post
      have hbody := Block.isShaped_mapCallees body
      simp [Stmt.mapCallees, Stmt.IsShaped, hpre, hpost, hbody]
  | .jump _ => Iff.rfl
  | .block body => Block.isShaped_mapCallees body

theorem Block.isShaped_mapCallees : ∀ b : Block,
    Block.IsShaped (Block.mapCallees ρ b) ↔ Block.IsShaped b
  | [] => Iff.rfl
  | s :: ss => and_congr (Stmt.isShaped_mapCallees s) (Block.isShaped_mapCallees ss)

theorem Case.areShaped_mapCallees : ∀ cases : List Case,
    Case.AreShaped (Case.mapCalleesAll ρ cases) ↔ Case.AreShaped cases
  | [] => Iff.rfl
  | ⟨value, body⟩ :: cases => by
      have hbody := Block.isShaped_mapCallees body
      have hcases := Case.areShaped_mapCallees cases
      simp [Case.mapCalleesAll, Case.AreShaped, Case.mapCalleesAll_eq_nil, hbody, hcases]

end

theorem Function.IsShim.isShaped {f g : Function} (h : g.IsShim f) :
    (Stmt.function g).IsShaped := by
  change Block.IsShaped g.body
  rw [h.body, Function.forward]
  by_cases hret : f.trim.returns = []
  · rw [if_pos hret]
    exact ⟨⟨_, _, rfl⟩, trivial⟩
  · rw [if_neg hret]
    exact ⟨fun hnil => hret ((f.mentioned_returns_eq_nil h.returns_length).mp hnil), trivial⟩

end Shape

namespace Program

variable {p : Program} {shim : Name → Function}

theorem callee_mem {c : Name} (hc : c ∈ p.names) :
    p.callee shim c ∈ p.names ∨ p.callee shim c ∈ p.shimNames shim := by
  by_cases hsplit : c ∈ p.splitNames
  · rw [callee_of_mem hsplit]
    exact Or.inr (List.mem_flatMap.mpr ⟨c, hsplit, List.mem_cons_self⟩)
  · rw [callee_of_not_mem hsplit]
    exact Or.inl hc

theorem names_mapCallees {s : Stmt} (hs : ∀ x ∈ Block.names [s], x ∈ p.names) :
    ∀ x ∈ Block.names [s.mapCallees (p.callee shim)], x ∈ p.names ∨ x ∈ p.shimNames shim := by
  intro x hx
  rcases Stmt.names_mapCallees hx with hx | ⟨c, hc, rfl⟩
  · exact Or.inl (hs x hx)
  · exact callee_mem (hs c hc)

theorem names_of_function? {f : Function} {c : Name} (hf : p.function? c = some f) :
    ∀ x ∈ Block.names [.function f], x ∈ p.names :=
  Block.names_subset_of_mem (mem_functions.mp (mem_functions_of_function? hf))

/-- Pruning brings no names into a program but those of the shims. -/
theorem Shims.names_of_expands (hshims : p.Shims shim) {seen : List Name} {ss out : List Stmt}
    (h : p.Expands shim seen ss out) :
    ∀ x ∈ Block.names out, x ∈ p.names ∨ x ∈ p.shimNames shim := by
  have hcons {s : Stmt} {out : List Stmt}
      (hs : ∀ x ∈ Block.names [s], x ∈ p.names ∨ x ∈ p.shimNames shim)
      (hout : ∀ x ∈ Block.names out, x ∈ p.names ∨ x ∈ p.shimNames shim) :
      ∀ x ∈ Block.names (s :: out), x ∈ p.names ∨ x ∈ p.shimNames shim := by
    intro x hx
    rw [Block.names_cons] at hx
    exact (List.mem_append.mp hx).elim (hs x) (hout x)
  induction h with
  | nil => exact nofun
  | @split seen ss out f hf hu _ _ ih =>
      refine hcons ?_ (hcons ?_ ih)
      · rw [← Stmt.mapCallees_function]
        exact names_mapCallees fun x hx => names_of_function? hf x (Function.names_trim hx)
      · intro x hx
        have hname := (name_mem_splitNames hf).mpr hu
        rcases (hshims.isShim hf hu).names hx with rfl | hx
        · refine Or.inl (names_of_function? hf _ ?_)
          exact Block.mem_names_function.mpr (Or.inl List.mem_cons_self)
        · exact Or.inr (List.mem_flatMap.mpr ⟨f.name, hname, hx⟩)
  | keep hf _ _ _ ih =>
      rw [← Stmt.mapCallees_function]
      exact hcons (names_mapCallees (names_of_function? hf)) ih
  | again hf _ _ ih =>
      rw [← Stmt.mapCallees_function]
      exact hcons (names_mapCallees (Block.names_subset_of_mem hf)) ih
  | other _ hmem _ ih => exact hcons (names_mapCallees (Block.names_subset_of_mem hmem)) ih

theorem Shims.isShaped_of_expands (hshims : p.Shims shim) {seen : List Name} {ss out : List Stmt}
    (h : p.Expands shim seen ss out) (hss : Block.IsShaped ss) : Block.IsShaped out := by
  induction h with
  | nil => exact hss
  | @split seen ss out f hf hu _ _ ih =>
      refine ⟨?_, ?_, ih hss.2⟩
      · exact (Block.isShaped_mapCallees _ f.body).mpr hss.1
      · exact (hshims.isShim hf hu).isShaped
  | keep _ _ _ _ ih | again _ _ _ ih =>
      rw [← Stmt.mapCallees_function]
      exact ⟨(Stmt.isShaped_mapCallees _ _).mpr hss.1, ih hss.2⟩
  | other _ _ _ ih => exact ⟨(Stmt.isShaped_mapCallees _ _).mpr hss.1, ih hss.2⟩

theorem WellFormed.expansion (h : p.WellFormed) (hshims : p.Shims shim)
    (hnumbers : p.NumbersShims shim) : (p.expansion shim).WellFormed := by
  have hexpands := p.expands_expansion shim
  refine ⟨fun x hx => ?_, hshims.isShaped_of_expands hexpands h.shape⟩
  rcases hshims.names_of_expands hexpands x hx with hx | hx
  · exact h.names x hx
  · obtain ⟨hint, hhint, hnumbered⟩ := hnumbers x hx
    exact isIdentifier_of_isNumbered (h.names hint hhint) hnumbered

end Program

end YulPruner
