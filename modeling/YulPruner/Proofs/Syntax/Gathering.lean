import YulPruner.Proofs.Syntax.Listing

namespace YulPruner

variable {α : Type}

/-- One of the nodes among the portions, at any depth, holds it. -/
def Shows (held : Node → List α) (portions : List Portion) (a : α) : Prop :=
  ∃ k n, Occurs portions k n ∧ a ∈ held n

section Shows

variable {held : Node → List α} {as bs : List Portion} {n : Node} {a : α}

@[simp] theorem not_shows_owned (pieces : List Piece) : ¬ Shows held (owned pieces) a := by
  rintro ⟨k, n, h, -⟩
  exact Additive.not_owned h

@[simp] theorem not_shows_nil : ¬ Shows held [] a := not_shows_owned []

@[simp] theorem shows_append : Shows held (as ++ bs) a ↔ Shows held as a ∨ Shows held bs a := by
  constructor
  · rintro ⟨k, n, h, ha⟩
    rcases Additive.append_iff.mp h with h | ⟨i, -, h⟩
    · exact Or.inl ⟨k, n, h, ha⟩
    · exact Or.inr ⟨i, n, h, ha⟩
  · rintro (⟨k, n, h, ha⟩ | ⟨i, n, h, ha⟩)
    · exact ⟨k, n, Additive.append_iff.mpr (Or.inl h), ha⟩
    · exact ⟨_, n, Additive.append_iff.mpr (Or.inr ⟨i, rfl, h⟩), ha⟩

theorem shows_child : Shows held [.child n] a ↔ a ∈ held n ∨ Shows held n.portions a := by
  constructor
  · rintro ⟨k, m, h, ha⟩
    rcases occurs_child.mp h with ⟨-, rfl⟩ | h
    · exact Or.inl ha
    · exact Or.inr ⟨k, m, h, ha⟩
  · rintro (ha | ⟨k, m, h, ha⟩)
    · exact ⟨0, n, occurs_child.mpr (Or.inl ⟨rfl, rfl⟩), ha⟩
    · exact ⟨k, m, occurs_child.mpr (Or.inr h), ha⟩

theorem shows_child_cons :
    Shows held (.child n :: as) a ↔ Shows held [.child n] a ∨ Shows held as a := by
  rw [← shows_append, List.singleton_append]

@[simp] theorem shows_blockPortions (depth : Nat) (b : Block) :
    Shows held (blockPortions depth b) a ↔ Shows held (linePortions (depth + 1) b) a := by
  rw [blockPortions]
  cases b with
  | nil => simp [linePortions]
  | cons s ss => simp

end Shows

/-- The item with which those of a statement begin, if it is not one of something inside. -/
def Stmt.heading : Stmt → List Item
  | .assignment targets _ => [.assignment targets]
  | .declaration names _ => [.declaration names]
  | .function f => [.definition f]
  | .conditional _ _ => [.conditional]
  | .switch _ _ => [.switch]
  | .loop _ _ _ _ => [.loop]
  | .expression _ | .jump _ | .block _ => []

/-- What the nodes hold is what is read off the items. -/
structure Gathers (held : Node → List α) (read : Item → List α) : Prop where
  stmt (depth : Nat) (s : Stmt) : held (.stmt depth s) = s.heading.flatMap read
  var (x : Name) (bound : Nat) : held (.value (.var x) bound) = read (.value (.var x) bound)
  literal (l : Literal) (bound : Nat) :
    held (.value (.literal l) bound) = read (.value (.literal l) bound)
  call {c : Name} {arguments : List Expr} {bound : Nat} {a : α} :
    a ∈ read (.value (.call c arguments) bound) ↔
      a ∈ held (.value (.call c arguments) bound) ∨ ∃ e ∈ arguments, a ∈ read (.value e 1)

namespace Gathers

variable {held : Node → List α} {read : Item → List α} {a : α}

mutual

theorem shows_value (h : Gathers held read) (bound : Nat) : ∀ e : Expr,
    Shows held [.child (.value e bound)] a ↔ a ∈ read (.value e bound)
  | .var x => by
      have hinside : ¬ Shows held (Node.value (.var x) bound).portions a := not_shows_owned [.name x]
      rw [shows_child, h.var, or_iff_left hinside]
  | .literal l => by
      have hinside : ¬ Shows held (Node.value (.literal l) bound).portions a :=
        not_shows_owned [.token l.token]
      rw [shows_child, h.literal, or_iff_left hinside]
  | .call c arguments => by
      have harguments := h.shows_arguments arguments
      simp [shows_child, Node.portions, harguments, h.call]

theorem shows_arguments (h : Gathers held read) : ∀ es : List Expr,
    Shows held (argumentPortions es) a ↔ ∃ e ∈ es, a ∈ read (.value e 1)
  | [] => by simp [argumentPortions]
  | [e] => by simp [argumentPortions, h.shows_value 1 e]
  | e :: d :: es => by
      have hlist : argumentPortions (e :: d :: es) = [.child (.value e 1)] ++
          (owned [.mark .comma, .space] ++ argumentPortions (d :: es)) := rfl
      rw [hlist, shows_append, h.shows_value 1 e, shows_append, h.shows_arguments (d :: es),
        List.exists_mem_cons_iff]
      simp

end

theorem shows_value_cons (h : Gathers held read) (e : Expr) (bound : Nat) (as : List Portion) :
    Shows held (.child (.value e bound) :: as) a ↔
      a ∈ read (.value e bound) ∨ Shows held as a := by
  rw [shows_child_cons, h.shows_value]

mutual

theorem shows_stmt (h : Gathers held read) (depth : Nat) : ∀ s : Stmt,
    Shows held [.child (.stmt depth s)] a ↔ a ∈ s.items.flatMap read
  | .expression e => by
      simp [shows_child, h.stmt, Stmt.heading, Node.portions, Stmt.items, h.shows_value]
  | .assignment targets e => by
      simp [shows_child, h.stmt, Stmt.heading, Node.portions, valuePortions, Stmt.items, h.shows_value]
  | .declaration names none => by
      simp [shows_child, h.stmt, Stmt.heading, Node.portions, Stmt.items]
  | .declaration names (some e) => by
      simp [shows_child, h.stmt, Stmt.heading, Node.portions, valuePortions, Stmt.items, h.shows_value]
  | .function ⟨name, parameters, returns, body⟩ => by
      have hbody := h.shows_lines (depth + 1) body
      simp [shows_child, h.stmt, Stmt.heading, Node.portions, hbody, Stmt.items]
  | .conditional condition body => by
      have hbody := h.shows_lines (depth + 1) body
      simp [shows_child, h.stmt, Stmt.heading, Node.portions, hbody, Stmt.items, h.shows_value_cons]
  | .switch scrutinee cases => by
      have hcases := h.shows_cases depth cases
      simp [shows_child, h.stmt, Stmt.heading, Node.portions, hcases, Stmt.items, h.shows_value_cons]
  | .loop pre condition post body => by
      have hpre := h.shows_lines (depth + 1) pre
      have hpost := h.shows_lines (depth + 1) post
      have hbody := h.shows_lines (depth + 1) body
      simp [shows_child, h.stmt, Stmt.heading, Node.portions, hpre, hpost, hbody, Stmt.items,
        h.shows_value_cons]
  | .jump j => by
      simp [shows_child, h.stmt, Stmt.heading, Node.portions, Stmt.items]
  | .block body => by
      have hbody := h.shows_lines (depth + 1) body
      simp [shows_child, h.stmt, Stmt.heading, Node.portions, hbody, Stmt.items]

theorem shows_lines (h : Gathers held read) (depth : Nat) : ∀ b : Block,
    Shows held (linePortions depth b) a ↔ a ∈ (Block.items b).flatMap read
  | [] => by simp [linePortions, Block.items]
  | s :: ss => by
      have hlines : linePortions depth (s :: ss) =
          owned [.newline depth] ++ ([.child (.stmt depth s)] ++ linePortions depth ss) := rfl
      rw [hlines, shows_append, shows_append, h.shows_stmt depth s, h.shows_lines depth ss,
        Block.items, List.flatMap_append, List.mem_append]
      simp

theorem shows_cases (h : Gathers held read) (depth : Nat) : ∀ cases : List Case,
    Shows held (casePortions depth cases) a ↔ a ∈ (Case.items cases).flatMap read
  | [] => by simp [casePortions, Case.items]
  | ⟨value, body⟩ :: cases => by
      have hbody := h.shows_lines (depth + 1) body
      have hlist : casePortions depth (⟨value, body⟩ :: cases) =
          owned (.newline depth :: casePieces value ++ [.space]) ++ blockPortions depth body ++
            casePortions depth cases := rfl
      rw [hlist, shows_append, shows_append, h.shows_cases depth cases, Case.items,
        List.flatMap_append, List.mem_append]
      simp [hbody]

end

/-- What stands in a block is what is read off its items. -/
theorem shows_block (h : Gathers held read) (depth : Nat) (b : Block) :
    Shows held (blockPortions depth b) a ↔ a ∈ (Block.items b).flatMap read := by
  rw [shows_blockPortions, h.shows_lines]

end Gathers

/-- The names that the node reads or assigns, apart from what is inside it. -/
def Node.uses : Node → List Name
  | .value (.var x) _ => [x]
  | .stmt _ (.assignment targets _) => targets
  | _ => []

/-- The names in the node, apart from what is inside it. -/
def Node.names : Node → List Name
  | .value (.var x) _ => [x]
  | .value (.call c _) _ => [c]
  | .stmt _ (.assignment targets _) => targets
  | .stmt _ (.declaration names _) => names
  | .stmt _ (.function f) => f.name :: f.parameters ++ f.returns
  | _ => []

theorem gathers_uses : Gathers Node.uses Item.references where
  stmt depth s := by cases s <;> simp [Node.uses, Stmt.heading, Item.references]
  var _ _ := rfl
  literal _ _ := rfl
  call := by simp [Node.uses, Item.references, Expr.variables, Expr.mem_variablesAll]

theorem gathers_names : Gathers Node.names Item.names where
  stmt depth s := by cases s <;> simp [Node.names, Stmt.heading, Item.names]
  var _ _ := rfl
  literal _ _ := rfl
  call {c arguments bound x} := by
    simp only [Node.names, Item.names, Expr.variables, Expr.callSites, List.mem_append,
      Expr.mem_variablesAll, List.map_cons, List.mem_cons, List.mem_map, Expr.mem_callSitesAll]
    grind

end YulPruner
