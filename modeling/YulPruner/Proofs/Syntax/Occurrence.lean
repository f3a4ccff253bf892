import YulPruner.Syntax.Printer
import Mathlib.Data.List.Infix

namespace YulPruner

/-- A statement on a line of the given depth, or an expression with the number of results that are
bound where it stands. -/
inductive Node where
  | stmt (depth : Nat) (s : Stmt)
  | value (e : Expr) (bound : Nat)

def Node.pieces : Node → List Piece
  | .stmt depth s => s.pieces depth
  | .value e _ => e.pieces

/-- A piece of its own or a child. -/
inductive Portion where
  | own (piece : Piece)
  | child (n : Node)

def Portion.pieces : Portion → List Piece
  | .own piece => [piece]
  | .child n => n.pieces

def printed (portions : List Portion) : List Piece := portions.flatMap Portion.pieces

section Portions

def owned (pieces : List Piece) : List Portion := pieces.map .own

def argumentPortions : List Expr → List Portion
  | [] => []
  | [e] => [.child (.value e 1)]
  | e :: d :: es =>
    .child (.value e 1) :: owned [.mark .comma, .space] ++ argumentPortions (d :: es)

def valuePortions (e : Expr) (bound : Nat) : List Portion :=
  owned [.space, .mark .assign, .space] ++ [.child (.value e bound)]

def linePortions (depth : Nat) (b : Block) : List Portion :=
  b.flatMap fun s => [.own (.newline depth), .child (.stmt depth s)]

def blockPortions (depth : Nat) (b : Block) : List Portion :=
  if b.isEmpty then owned [.mark .leftBrace, .space, .mark .rightBrace]
  else owned [.mark .leftBrace] ++ linePortions (depth + 1) b ++
    owned [.newline depth, .mark .rightBrace]

def casePortions (depth : Nat) (cases : List Case) : List Portion :=
  cases.flatMap fun c =>
    owned (.newline depth :: casePieces c.value ++ [.space]) ++ blockPortions depth c.body

end Portions

/-- The pieces of a node that are not in its children, and its children between them. -/
def Node.portions : Node → List Portion
  | .value (.var x) _ => owned [.name x]
  | .value (.literal l) _ => owned [.token l.token]
  | .value (.call c arguments) _ =>
    owned [.name c, .mark .leftParen] ++ argumentPortions arguments ++ owned [.mark .rightParen]
  | .stmt _ (.expression e) => [.child (.value e 0)]
  | .stmt _ (.assignment targets e) =>
    owned (namePieces targets) ++ valuePortions e targets.length
  | .stmt _ (.declaration names e?) =>
    owned ([.keyword .declare, .space] ++ namePieces names) ++
      (e?.map (valuePortions · names.length)).getD []
  | .stmt depth (.function f) =>
    owned (headerPieces f.name f.parameters f.returns ++ [.space]) ++ blockPortions depth f.body
  | .stmt depth (.conditional condition body) =>
    owned [.keyword .conditional, .space] ++ [.child (.value condition 1)] ++ owned [.space] ++
      blockPortions depth body
  | .stmt depth (.switch scrutinee cases) =>
    owned [.keyword .switch, .space] ++ [.child (.value scrutinee 1)] ++ casePortions depth cases
  | .stmt depth (.loop pre condition post body) =>
    owned [.keyword .loop, .space] ++ blockPortions depth pre ++ owned [.space] ++
      [.child (.value condition 1)] ++ owned [.space] ++ blockPortions depth post ++
      owned [.space] ++ blockPortions depth body
  | .stmt _ (.jump j) => owned [.keyword j.keyword]
  | .stmt depth (.block body) => blockPortions depth body

section Printed

theorem printed_append (as bs : List Portion) : printed (as ++ bs) = printed as ++ printed bs :=
  List.flatMap_append

theorem printed_owned (pieces : List Piece) : printed (owned pieces) = pieces := by
  rw [printed, owned, List.flatMap_map]
  exact List.flatMap_singleton' pieces

theorem printed_child (n : Node) : printed [.child n] = n.pieces := List.append_nil _

theorem printed_argumentPortions (es : List Expr) :
    printed (argumentPortions es) = commaSeparated (Expr.piecesAll es) := by
  induction es with
  | nil => rfl
  | cons e es ih =>
      cases es with
      | nil => simp [argumentPortions, printed_child, Node.pieces, Expr.piecesAll, commaSeparated]
      | cons d es =>
          have hrest : printed (argumentPortions (e :: d :: es)) =
              e.pieces ++ [.mark .comma, .space] ++ printed (argumentPortions (d :: es)) := by
            rw [argumentPortions, printed_append]
            rfl
          rw [hrest, ih]
          simp [Expr.piecesAll, commaSeparated, List.intercalate]

theorem printed_valuePortions (e : Expr) (bound : Nat) :
    printed (valuePortions e bound) = valuePieces e := by
  rw [valuePortions, printed_append, printed_owned, printed_child, Node.pieces, valuePieces]

theorem printed_linePortions (depth : Nat) (b : Block) :
    printed (linePortions depth b) = Block.lines depth b := by
  induction b with
  | nil => rfl
  | cons s ss ih =>
      have hline : linePortions depth (s :: ss) =
          [.own (.newline depth)] ++ [.child (.stmt depth s)] ++ linePortions depth ss := rfl
      rw [hline, printed_append, ih, Block.lines, printed_append, printed_child]
      rfl

theorem printed_blockPortions (depth : Nat) (b : Block) :
    printed (blockPortions depth b) = Block.pieces depth b := by
  rw [blockPortions, Block.pieces, inBraces]
  cases b with
  | nil => rfl
  | cons s ss =>
      rw [if_neg (by simp), if_neg (by simp [Block.lines]), printed_append, printed_append,
        printed_owned, printed_owned, printed_linePortions]

theorem printed_casePortions (depth : Nat) (cases : List Case) :
    printed (casePortions depth cases) = Case.lines depth cases := by
  induction cases with
  | nil => rfl
  | cons c cases ih =>
      have hcase : casePortions depth (c :: cases) =
          owned (.newline depth :: casePieces c.value ++ [.space]) ++ blockPortions depth c.body ++
            casePortions depth cases := rfl
      rw [hcase, printed_append, ih, printed_append, printed_owned, printed_blockPortions,
        Block.pieces, Case.lines]

theorem Node.printed_portions (n : Node) : printed n.portions = n.pieces := by
  cases n with
  | value e bound =>
      cases e with
      | var | literal => rfl
      | call c arguments =>
          simp only [Node.portions, Node.pieces, Expr.pieces, printed_append, printed_owned,
            printed_argumentPortions]
  | stmt depth s =>
      cases s with
      | expression e => exact printed_child _
      | jump j => rfl
      | declaration names value =>
          cases value <;> simp only [Node.portions, Node.pieces, Stmt.pieces, printed_append,
            printed_owned, Option.map_none, Option.map_some, Option.getD_none, Option.getD_some,
            printed_valuePortions]
          rfl
      | _ => simp only [Node.portions, Node.pieces, Stmt.pieces, printed_append, printed_owned,
          printed_child, printed_valuePortions, printed_blockPortions, Block.pieces,
          printed_casePortions]

end Printed

/-- The child stands behind so many pieces. -/
inductive HasChild : List Portion → Nat → Node → Prop
  | head {n portions} : HasChild (.child n :: portions) 0 n
  | tail {portion portions k n} (h : HasChild portions k n) :
      HasChild (portion :: portions) (portion.pieces.length + k) n

/-- The node stands behind so many pieces, at any depth. -/
inductive Occurs : List Portion → Nat → Node → Prop
  | child {portions k n} (h : HasChild portions k n) : Occurs portions k n
  | inside {portions k n i m} (h : HasChild portions k n) (hs : Occurs n.portions i m) :
      Occurs portions (k + i) m

def Inside (portions : List Portion) (k : Nat) (m : Node) : Prop :=
  ∃ i j n, k = i + j ∧ HasChild portions i n ∧ Occurs n.portions j m

section Occurs

variable {as bs portions : List Portion} {n m : Node} {k : Nat}

theorem HasChild.starts (h : HasChild portions k n) : n.pieces <+: (printed portions).drop k := by
  induction h with
  | head => exact List.prefix_append _ _
  | @tail portion portions k n _ ih =>
      have hcons : printed (portion :: portions) = portion.pieces ++ printed portions := rfl
      rwa [hcons, List.drop_append, List.drop_eq_nil_of_le (Nat.le_add_right _ _), List.nil_append,
        Nat.add_sub_cancel_left]

/-- What is printed from the place on begins with the node. -/
theorem Occurs.starts (h : Occurs portions k n) : n.pieces <+: (printed portions).drop k := by
  induction h with
  | child h => exact h.starts
  | @inside _ k n i _ h _ ih =>
      rw [n.printed_portions] at ih
      have hinside := h.starts.drop i
      rw [List.drop_drop] at hinside
      exact ih.trans hinside

theorem hasChild_append : HasChild (as ++ bs) k n ↔
    HasChild as k n ∨ ∃ i, k = (printed as).length + i ∧ HasChild bs i n := by
  induction as generalizing k with
  | nil =>
      constructor
      · exact fun h => Or.inr ⟨k, (Nat.zero_add k).symm, h⟩
      · rintro (ha | ⟨i, rfl, hb⟩)
        · cases ha
        · rwa [printed, List.flatMap_nil, List.length_nil, Nat.zero_add]
  | cons a as ih =>
      have hlength (i : Nat) : (printed (a :: as)).length + i =
          a.pieces.length + ((printed as).length + i) := by
        rw [printed, List.flatMap_cons, List.length_append, Nat.add_assoc, printed]
      constructor
      · intro h
        cases h with
        | head => exact Or.inl .head
        | tail h =>
            rcases ih.mp h with ha | ⟨i, rfl, hb⟩
            · exact Or.inl (.tail ha)
            · exact Or.inr ⟨i, (hlength i).symm, hb⟩
      · rintro (ha | ⟨i, rfl, hb⟩)
        · cases ha with
          | head => exact .head
          | tail ha => exact .tail (ih.mpr (Or.inl ha))
        · rw [hlength]
          exact .tail (ih.mpr (Or.inr ⟨i, rfl, hb⟩))

theorem inside_append : Inside (as ++ bs) k n ↔
    Inside as k n ∨ ∃ i, k = (printed as).length + i ∧ Inside bs i n := by
  constructor
  · rintro ⟨i, j, m, rfl, h, hs⟩
    rcases hasChild_append.mp h with ha | ⟨i, rfl, hb⟩
    · exact Or.inl ⟨i, j, m, rfl, ha, hs⟩
    · exact Or.inr ⟨i + j, Nat.add_assoc .., i, j, m, rfl, hb, hs⟩
  · rintro (⟨i, j, m, rfl, ha, hs⟩ | ⟨_, rfl, i, j, m, rfl, hb, hs⟩)
    · exact ⟨i, j, m, rfl, hasChild_append.mpr (Or.inl ha), hs⟩
    · exact ⟨_, j, m, (Nat.add_assoc ..).symm, hasChild_append.mpr (Or.inr ⟨i, rfl, hb⟩), hs⟩

theorem occurs_iff : Occurs portions k n ↔ HasChild portions k n ∨ Inside portions k n := by
  constructor
  · intro h
    cases h with
    | child h => exact Or.inl h
    | inside h hs => exact Or.inr ⟨_, _, _, rfl, h, hs⟩
  · rintro (h | ⟨i, j, m, rfl, h, hs⟩)
    · exact .child h
    · exact .inside h hs

theorem not_hasChild_owned (pieces : List Piece) : ¬ HasChild (owned pieces) k n := by
  induction pieces generalizing k with
  | nil => nofun
  | cons piece pieces ih =>
      intro h
      cases h with
      | tail h => exact ih h

theorem not_inside_owned (pieces : List Piece) : ¬ Inside (owned pieces) k n := by
  rintro ⟨i, j, m, -, h, -⟩
  exact not_hasChild_owned pieces h

theorem hasChild_child : HasChild [.child m] k n ↔ k = 0 ∧ n = m := by
  constructor
  · intro h
    cases h with
    | head => exact ⟨rfl, rfl⟩
    | tail h => cases h
  · rintro ⟨rfl, rfl⟩
    exact .head

theorem inside_child : Inside [.child m] k n ↔ Occurs m.portions k n := by
  constructor
  · rintro ⟨i, j, m', rfl, h, hs⟩
    obtain ⟨rfl, rfl⟩ := hasChild_child.mp h
    rwa [Nat.zero_add]
  · intro h
    exact ⟨0, k, m, (Nat.zero_add k).symm, .head, h⟩

theorem occurs_child : Occurs [.child m] k n ↔ (k = 0 ∧ n = m) ∨ Occurs m.portions k n := by
  rw [occurs_iff, hasChild_child, inside_child]

end Occurs

end YulPruner
