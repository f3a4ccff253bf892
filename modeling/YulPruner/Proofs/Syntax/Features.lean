import YulPruner.Proofs.Analysis.FirstViolation
import YulPruner.Proofs.Syntax.Gathering
import YulPruner.Syntax.Features

namespace YulPruner

/-- What kind of construct the node is, whatever is inside it. -/
def Node.feature? : Node → Option Feature
  | .value (.call _ _) _ => some .calls
  | .stmt _ (.function _) => some .functions
  | .stmt _ (.conditional _ _) => some .conditionals
  | .stmt _ (.switch _ _) => some .switches
  | .stmt _ (.loop _ _ _ _) => some .loops
  | _ => none

def featuresOf (items : List Item) : List Feature := items.flatMap Item.features

section Lists

variable {k : Feature}

@[simp] theorem featuresOf_nil : featuresOf [] = [] := rfl

@[simp] theorem featuresOf_append (is js : List Item) :
    featuresOf (is ++ js) = featuresOf is ++ featuresOf js := List.flatMap_append

@[simp] theorem featuresOf_cons (item : Item) (items : List Item) :
    featuresOf (item :: items) = item.features ++ featuresOf items := List.flatMap_cons

theorem Feature.mem_all (k : Feature) : k ∈ Feature.all := by
  cases k <;> decide

theorem Program.mem_features {p : Program} :
    k ∈ p.features ↔ k ∈ featuresOf (Block.items p.root) := by
  simp [Program.features, featuresOf, k.mem_all]

theorem Feature.bit_injective {k k' : Feature} (h : k.bit = k'.bit) : k = k' := by
  cases k <;> cases k' <;> simp [Feature.bit] at h ⊢

theorem testBit_featureBits (features : List Feature) (i : Nat) :
    (featureBits features).testBit i = true ↔ ∃ k ∈ features, k.bit = i := by
  -- On the features that are still to come, whatever bits have been set before.
  have hfold (bits : Nat) :
      (features.foldl (fun bits k => bits ||| 1 <<< k.bit) bits).testBit i = true ↔
        bits.testBit i = true ∨ ∃ k ∈ features, k.bit = i := by
    induction features generalizing bits with
    | nil => simp
    | cons k features ih =>
        rw [List.foldl_cons, ih]
        simp [Nat.one_shiftLeft, Nat.testBit_two_pow, or_assoc]
  rw [featureBits, hfold]
  simp

theorem testBit_featureBits_bit (features : List Feature) (k : Feature) :
    (featureBits features).testBit k.bit = true ↔ k ∈ features := by
  rw [testBit_featureBits]
  constructor
  · rintro ⟨k', hk', hbit⟩
    exact Feature.bit_injective hbit ▸ hk'
  · exact fun hk => ⟨k, hk, rfl⟩

end Lists

theorem gathers_features : Gathers (fun n => n.feature?.toList) Item.features where
  stmt depth s := by cases s <;> rfl
  var _ _ := rfl
  literal _ _ := rfl
  call {c arguments bound k} := by
    simp only [Item.features, Node.feature?, Expr.callSites, List.map_cons, List.mem_cons,
      List.mem_map, Expr.mem_callSitesAll, Option.toList_some]
    grind

/-- A program has a feature if and only if a node of that kind stands in it. -/
theorem Program.mem_features_iff {p : Program} {k : Feature} :
    k ∈ p.features ↔ ∃ i n, p.OccursAt i n ∧ n.feature? = some k := by
  rw [Program.mem_features, featuresOf, ← gathers_features.shows_block 0, Shows]
  simp only [Option.mem_toList]
  rfl

end YulPruner
