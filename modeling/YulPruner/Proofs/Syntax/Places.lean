import YulPruner.Proofs.Syntax.Items

namespace YulPruner

/-- An expression, and the number of results that are taken where it stands. -/
structure Place where
  value : Expr
  bound : Nat

mutual

def Expr.places (bound : Nat) : Expr → List Place
  | .var x => [⟨.var x, bound⟩]
  | .literal l => [⟨.literal l, bound⟩]
  | .call f arguments => ⟨.call f arguments, bound⟩ :: Expr.placesAll arguments
termination_by structural e => e

def Expr.placesAll : List Expr → List Place
  | [] => []
  | e :: es => e.places 1 ++ Expr.placesAll es
termination_by structural es => es

end

def Item.places : Item → List Place
  | .value e bound => e.places bound
  | _ => []

def Program.places (p : Program) : List Place := (Block.items p.root).flatMap Item.places

theorem Expr.mem_places_self (e : Expr) (bound : Nat) : ⟨e, bound⟩ ∈ e.places bound := by
  cases e <;> exact List.mem_cons_self

theorem Item.mem_places {items : List Item} {e : Expr} {bound : Nat}
    (h : .value e bound ∈ items) : ⟨e, bound⟩ ∈ items.flatMap Item.places :=
  List.mem_flatMap.mpr ⟨_, h, e.mem_places_self bound⟩

mutual

theorem Expr.mem_callSites_of_mem_places {c : Name} {arguments : List Expr} {n : Nat} (bound : Nat) :
    ∀ e : Expr, ⟨.call c arguments, n⟩ ∈ e.places bound →
      ⟨c, arguments.length, n⟩ ∈ e.callSites bound
  | .var _, h => by cases List.mem_singleton.mp h
  | .literal _, h => by cases List.mem_singleton.mp h
  | .call _ as, h => by
      rcases List.mem_cons.mp h with h | h
      · cases h
        exact List.mem_cons_self
      · exact List.mem_cons_of_mem _ (Expr.mem_callSitesAll_of_mem_placesAll as h)

theorem Expr.mem_callSitesAll_of_mem_placesAll {c : Name} {arguments : List Expr} {n : Nat} :
    ∀ es : List Expr, ⟨.call c arguments, n⟩ ∈ Expr.placesAll es →
      ⟨c, arguments.length, n⟩ ∈ Expr.callSitesAll es
  | [], h => nomatch h
  | e :: es, h => by
      rcases List.mem_append.mp h with h | h
      · exact List.mem_append_left _ (Expr.mem_callSites_of_mem_places 1 e h)
      · exact List.mem_append_right _ (Expr.mem_callSitesAll_of_mem_placesAll es h)

end

theorem Program.mem_callSites_of_mem_places {p : Program} {c : Name} {arguments : List Expr}
    {bound : Nat} (h : ⟨.call c arguments, bound⟩ ∈ p.places) :
    ⟨c, arguments.length, bound⟩ ∈ Block.callSites p.root := by
  obtain ⟨item, hi, hplace⟩ := List.mem_flatMap.mp h
  cases item with
  | value e n =>
      exact List.mem_flatMap.mpr ⟨_, hi, Expr.mem_callSites_of_mem_places n e hplace⟩
  | _ => cases hplace

end YulPruner
