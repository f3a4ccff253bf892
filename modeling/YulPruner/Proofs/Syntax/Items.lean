import YulPruner.Syntax.Items
import Mathlib.Data.List.Basic

namespace YulPruner

mutual

/-- Induction over expressions, where a call has the hypothesis for each of its arguments. -/
@[elab_as_elim]
theorem Expr.argumentInduction {motive : Expr → Prop} (var : ∀ x, motive (.var x))
    (literal : ∀ l, motive (.literal l))
    (call : ∀ f arguments, (∀ e ∈ arguments, motive e) → motive (.call f arguments)) :
    ∀ e, motive e
  | .var x => var x
  | .literal l => literal l
  | .call f arguments => call f arguments (Expr.argumentInductionAll var literal call arguments)

theorem Expr.argumentInductionAll {motive : Expr → Prop} (var : ∀ x, motive (.var x))
    (literal : ∀ l, motive (.literal l))
    (call : ∀ f arguments, (∀ e ∈ arguments, motive e) → motive (.call f arguments)) :
    ∀ es : List Expr, ∀ e ∈ es, motive e
  | e :: es, d, hd => by
      rcases List.mem_cons.mp hd with heq | hd
      · rw [heq]
        exact Expr.argumentInduction var literal call e
      · exact Expr.argumentInductionAll var literal call es d hd

end

mutual

def Stmt.ownItems : Stmt → List Item
  | .expression e => [.value e 0]
  | .assignment targets value => [.assignment targets, .value value targets.length]
  | .declaration names value =>
    .declaration names :: (value.map (Item.value · names.length)).toList
  | .function _ => []
  | .conditional condition body => .conditional :: .value condition 1 :: Block.ownItems body
  | .switch scrutinee cases => .switch :: .value scrutinee 1 :: Case.ownItems cases
  | .loop pre condition post body =>
    .loop :: Block.ownItems pre ++
      .value condition 1 :: (Block.ownItems post ++ Block.ownItems body)
  | .jump _ => []
  | .block body => Block.ownItems body
termination_by structural s => s

def Block.ownItems : List Stmt → List Item
  | [] => []
  | s :: ss => s.ownItems ++ Block.ownItems ss
termination_by structural ss => ss

def Case.ownItems : List (CaseOf (List Stmt)) → List Item
  | [] => []
  | ⟨_, body⟩ :: cases => Block.ownItems body ++ Case.ownItems cases
termination_by structural cases => cases

end

mutual

theorem Stmt.ownItems_sublist : ∀ s : Stmt, s.ownItems.Sublist s.items
  | .expression _ | .assignment _ _ | .declaration _ _ | .jump _ => .refl _
  | .function _ => List.nil_sublist _
  | .conditional _ body => ((Block.ownItems_sublist body).cons_cons _).cons_cons _
  | .switch _ cases => ((Case.ownItems_sublist cases).cons_cons _).cons_cons _
  | .loop pre _ post body =>
      ((Block.ownItems_sublist pre).append
        (((Block.ownItems_sublist post).append (Block.ownItems_sublist body)).cons_cons _)).cons_cons _
  | .block body => Block.ownItems_sublist body

theorem Block.ownItems_sublist : ∀ b : Block, (Block.ownItems b).Sublist (Block.items b)
  | [] => .refl _
  | s :: ss => (Stmt.ownItems_sublist s).append (Block.ownItems_sublist ss)

theorem Case.ownItems_sublist : ∀ cases : List Case,
    (Case.ownItems cases).Sublist (Case.items cases)
  | [] => .refl _
  | ⟨_, body⟩ :: cases => (Block.ownItems_sublist body).append (Case.ownItems_sublist cases)

end

theorem Block.items_eq_flatMap (b : Block) : Block.items b = b.flatMap Stmt.items := by
  induction b with
  | nil => rfl
  | cons s ss ih => rw [Block.items, ih, List.flatMap_cons]

theorem Block.items_append (a b : Block) : Block.items (a ++ b) = Block.items a ++ Block.items b := by
  simp only [Block.items_eq_flatMap, List.flatMap_append]

theorem Block.items_singleton (s : Stmt) : Block.items [s] = s.items := by
  rw [Block.items, Block.items, List.append_nil]

theorem Block.items_subset_of_mem {s : Stmt} {b : Block} (h : s ∈ b) :
    ∀ item ∈ s.items, item ∈ Block.items b := by
  intro item hi
  rw [Block.items_eq_flatMap]
  exact List.mem_flatMap.mpr ⟨s, h, hi⟩

theorem Case.items_subset_of_mem {c : Case} {cases : List Case} (h : c ∈ cases) :
    ∀ item ∈ Block.items c.body, item ∈ Case.items cases := by
  intro item hi
  induction cases with
  | nil => cases h
  | cons c' cases ih =>
      obtain ⟨value, body⟩ := c'
      rcases List.mem_cons.mp h with rfl | h
      · exact List.mem_append_left _ hi
      · exact List.mem_append_right _ (ih h)

theorem Block.items_body_subset {f : Function} {b : Block} (h : Stmt.function f ∈ b) :
    ∀ item ∈ Block.items f.body, item ∈ Block.items b :=
  fun item hi => Block.items_subset_of_mem h item (List.mem_cons_of_mem _ hi)

theorem Block.definition_mem_items {f : Function} {b : Block} (h : Stmt.function f ∈ b) :
    Item.definition f ∈ Block.items b :=
  Block.items_subset_of_mem h _ List.mem_cons_self

theorem Block.definitions_cons (s : Stmt) (ss : Block) :
    Block.definitions (s :: ss) = Block.definitions [s] ++ Block.definitions ss := by
  rw [Block.definitions, ← List.singleton_append, Block.items_append, List.filterMap_append,
    Block.definitions, Block.definitions]

theorem Block.definitions_function (f : Function) :
    Block.definitions [.function f] = f :: Block.definitions f.body := by
  simp [Block.definitions, Block.items, Stmt.items, Item.definition?]

theorem Block.callSites_append (a b : Block) :
    Block.callSites (a ++ b) = Block.callSites a ++ Block.callSites b := by
  simp only [Block.callSites, Block.items_append, List.flatMap_append]

theorem Block.callSites_cons (s : Stmt) (ss : Block) :
    Block.callSites (s :: ss) = Block.callSites [s] ++ Block.callSites ss :=
  Block.callSites_append [s] ss

theorem Block.callSites_function (f : Function) :
    Block.callSites [.function f] = Block.callSites f.body := by
  simp [Block.callSites, Block.items, Stmt.items, Item.callSites]

theorem Block.callSites_body_subset {f : Function} {b : Block} (h : Stmt.function f ∈ b) :
    ∀ site ∈ Block.callSites f.body, site ∈ Block.callSites b := by
  intro site hsite
  obtain ⟨item, hi, hs⟩ := List.mem_flatMap.mp hsite
  exact List.mem_flatMap.mpr ⟨item, Block.items_body_subset h item hi, hs⟩

theorem Block.names_cons (s : Stmt) (ss : Block) :
    Block.names (s :: ss) = Block.names [s] ++ Block.names ss := by
  simp only [Block.names, Block.items_eq_flatMap, List.flatMap_cons, List.flatMap_nil,
    List.append_nil, List.flatMap_append]

theorem Block.names_singleton (s : Stmt) : Block.names [s] = s.items.flatMap Item.names := by
  rw [Block.names, Block.items_singleton]

theorem Block.names_subset_of_mem {s : Stmt} {b : Block} (h : s ∈ b) :
    ∀ x ∈ Block.names [s], x ∈ Block.names b := by
  intro x hx
  rw [Block.names_singleton] at hx
  obtain ⟨item, hi, hxi⟩ := List.mem_flatMap.mp hx
  exact List.mem_flatMap.mpr ⟨item, Block.items_subset_of_mem h item hi, hxi⟩

theorem Block.mem_names_of_mem_items {item : Item} {b : Block} (h : item ∈ Block.items b) {x : Name}
    (hx : x ∈ item.names) : x ∈ Block.names b :=
  List.mem_flatMap.mpr ⟨item, h, hx⟩

theorem Block.name_mem_names {f : Function} {b : Block} (h : Item.definition f ∈ Block.items b) :
    f.name ∈ Block.names b :=
  Block.mem_names_of_mem_items h (by simp [Item.names])

theorem Block.mem_items_of_mem_definitions {f : Function} {b : Block}
    (h : f ∈ Block.definitions b) : Item.definition f ∈ Block.items b := by
  obtain ⟨item, hi, hf⟩ := List.mem_filterMap.mp h
  cases item with
  | definition g => cases hf; exact hi
  | _ => cases hf

theorem Block.callee_mem_names {site : CallSite} {b : Block} (h : site ∈ Block.callSites b) :
    site.callee ∈ Block.names b := by
  obtain ⟨item, hi, hs⟩ := List.mem_flatMap.mp h
  cases item with
  | value e bound =>
      exact Block.mem_names_of_mem_items hi (List.mem_append_right _ (List.mem_map_of_mem hs))
  | _ => cases hs

theorem Expr.mem_variablesAll {es : List Expr} {x : Name} :
    x ∈ Expr.variablesAll es ↔ ∃ e ∈ es, x ∈ e.variables := by
  induction es with
  | nil => simp [Expr.variablesAll]
  | cons e es ih => simp [Expr.variablesAll, ih]

theorem Expr.mem_callSitesAll {es : List Expr} {site : CallSite} :
    site ∈ Expr.callSitesAll es ↔ ∃ e ∈ es, site ∈ e.callSites 1 := by
  induction es with
  | nil => simp [Expr.callSitesAll]
  | cons e es ih => simp [Expr.callSitesAll, ih]

end YulPruner
