import YulPruner.Proofs.Syntax.WellFormed
import YulPruner.Syntax.Printer
import Mathlib.Data.List.Basic

namespace YulPruner

def Piece.token? : Piece → Option Token
  | .token t => some t
  | _ => none

/-- The tokens among pieces. -/
def tokensOf (pieces : List Piece) : List Token := pieces.filterMap Piece.token?

section Tokens

@[simp] theorem tokensOf_nil : tokensOf [] = [] := rfl

@[simp] theorem tokensOf_token (t : Token) (pieces : List Piece) :
    tokensOf (.token t :: pieces) = t :: tokensOf pieces := rfl

@[simp] theorem tokensOf_mark (m : Mark) (pieces : List Piece) :
    tokensOf (.mark m :: pieces) = .mark m :: tokensOf pieces := rfl

@[simp] theorem tokensOf_keyword (k : Keyword) (pieces : List Piece) :
    tokensOf (.keyword k :: pieces) = .keyword k :: tokensOf pieces := rfl

@[simp] theorem tokensOf_name (x : Name) (pieces : List Piece) :
    tokensOf (.name x :: pieces) = .identifier x :: tokensOf pieces := rfl

@[simp] theorem tokensOf_space (pieces : List Piece) :
    tokensOf (.space :: pieces) = tokensOf pieces := rfl

@[simp] theorem tokensOf_newline (depth : Nat) (pieces : List Piece) :
    tokensOf (.newline depth :: pieces) = tokensOf pieces := rfl

@[simp] theorem tokensOf_append (a b : List Piece) :
    tokensOf (a ++ b) = tokensOf a ++ tokensOf b := List.filterMap_append

theorem tokensOf_inBraces (depth : Nat) (lines : List Piece) :
    tokensOf (inBraces depth lines) =
      Token.mark .leftBrace :: tokensOf lines ++ [Token.mark .rightBrace] := by
  rw [inBraces]
  split
  · next h =>
    rw [List.isEmpty_iff.mp h]
    rfl
  · simp

theorem commaSeparated_cons_cons (a b : List Piece) (items : List (List Piece)) :
    commaSeparated (a :: b :: items) =
      a ++ .mark .comma :: .space :: commaSeparated (b :: items) := by
  simp [commaSeparated, List.intercalate]

end Tokens

section Derivations

theorem separated_commaSeparated {α : Type} {D : α → List Token → Prop} {pieces : α → List Piece}
    {as : List α} (h : ∀ a ∈ as, D a (tokensOf (pieces a))) (hne : as ≠ []) :
    Separated D as (tokensOf (commaSeparated (as.map pieces))) := by
  induction as with
  | nil => exact absurd rfl hne
  | cons a as ih =>
      have ha := h a List.mem_cons_self
      cases as with
      | nil => simpa [commaSeparated] using Separated.single ha
      | cons b as =>
          have hlist := Separated.cons ha
            (ih (fun c hc => h c (List.mem_cons_of_mem _ hc)) (List.cons_ne_nil b as))
          simpa [commaSeparated_cons_cons] using hlist

theorem parenthesized_commaSeparated {α : Type} {D : α → List Token → Prop}
    {pieces : α → List Piece} {as : List α} (h : ∀ a ∈ as, D a (tokensOf (pieces a))) :
    Parenthesized D as (Token.mark .leftParen :: tokensOf (commaSeparated (as.map pieces)) ++
      [.mark .rightParen]) := by
  by_cases hne : as = []
  · subst hne
    exact .nil
  · exact .list (separated_commaSeparated h hne)

theorem Literal.derives_token (l : Literal) : l.Derives [l.token] := by
  cases l with
  | number n => exact .number n
  | string s => exact .string s
  | bool b => cases b <;> constructor

theorem separated_namePieces {names : List Name} (hne : names ≠ []) :
    Separated Name.Derives names (tokensOf (namePieces names)) :=
  separated_commaSeparated (fun x _ => .identifier x) hne

theorem Expr.piecesAll_eq_map (es : List Expr) : Expr.piecesAll es = es.map Expr.pieces := by
  induction es with
  | nil => rfl
  | cons e es ih => rw [Expr.piecesAll, ih, List.map_cons]

theorem Expr.derives_pieces (e : Expr) : e.Derives (tokensOf e.pieces) := by
  induction e using Expr.argumentInduction with
  | var x => exact .var x
  | literal l => exact .literal l.derives_token
  | call f arguments ih =>
      have hcall := Expr.Derives.call (f := f) (parenthesized_commaSeparated ih)
      simpa [Expr.pieces, Expr.piecesAll_eq_map] using hcall

theorem Expr.Derives.statement {f : Name} {arguments : List Expr} {ts : List Token}
    (h : (Expr.call f arguments).Derives ts) : (Stmt.expression (.call f arguments)).Derives ts := by
  cases h with
  | call h => exact .call h

theorem valueDerives_pieces (value : Option Expr) :
    ValueDerives value (tokensOf ((value.map valuePieces).getD [])) := by
  cases value with
  | none => exact .none
  | some e => exact .some e.derives_pieces

theorem returnsDerive_pieces (returns : List Name) : ReturnsDerive returns (tokensOf
    (if returns.isEmpty then [] else [.space, .mark .arrow, .space] ++ namePieces returns)) := by
  cases returns with
  | nil => exact .none
  | cons x returns => exact .some (separated_namePieces (List.cons_ne_nil x returns))

theorem derives_header_body {name : Name} {parameters returns : List Name} {body : Block}
    {pieces : List Piece} (h : Block.Derives body (tokensOf pieces)) :
    (Stmt.function ⟨name, parameters, returns, body⟩).Derives
      (tokensOf (headerPieces name parameters returns ++ [.space] ++ pieces)) := by
  have hparameters : Parenthesized Name.Derives parameters
      (Token.mark .leftParen :: tokensOf (namePieces parameters) ++ [Token.mark .rightParen]) :=
    parenthesized_commaSeparated fun x _ => .identifier x
  have hwhole : (Stmt.function ⟨name, parameters, returns, body⟩).Derives _ :=
    .function hparameters (returnsDerive_pieces returns) h
  simpa [headerPieces] using hwhole

theorem Stmt.DeriveAll.inBraces {b : Block} {lines : List Piece} (depth : Nat)
    (h : Stmt.DeriveAll b (tokensOf lines)) :
    Block.Derives b (tokensOf (YulPruner.inBraces depth lines)) := by
  rw [tokensOf_inBraces]
  exact .braces h

mutual

theorem Stmt.derives_pieces (depth : Nat) :
    ∀ s : Stmt, s.IsShaped → s.Derives (tokensOf (s.pieces depth))
  | .expression _, ⟨f, arguments, h⟩ => by
      rw [h]
      exact (Expr.derives_pieces (.call f arguments)).statement
  | .assignment targets value, h => by
      have hwhole := Stmt.Derives.assignment (separated_namePieces h) value.derives_pieces
      simpa [Stmt.pieces, valuePieces] using hwhole
  | .declaration names value, h => by
      have hwhole := Stmt.Derives.declaration (separated_namePieces h) (valueDerives_pieces value)
      simpa [Stmt.pieces] using hwhole
  | .function ⟨_, _, _, body⟩, h =>
      derives_header_body ((Block.derives_lines (depth + 1) body h).inBraces depth)
  | .conditional condition body, h => by
      have hbody := (Block.derives_lines (depth + 1) body h).inBraces depth
      have hwhole := Stmt.Derives.conditional condition.derives_pieces hbody
      simpa [Stmt.pieces] using hwhole
  | .switch scrutinee cases, h => by
      have hcases := Case.derives_lines depth cases h.2
      have hwhole := Stmt.Derives.switch scrutinee.derives_pieces hcases h.1
      simpa [Stmt.pieces] using hwhole
  | .loop pre condition post body, h => by
      have hpre := (Block.derives_lines (depth + 1) pre h.1).inBraces depth
      have hpost := (Block.derives_lines (depth + 1) post h.2.1).inBraces depth
      have hbody := (Block.derives_lines (depth + 1) body h.2.2).inBraces depth
      have hwhole := Stmt.Derives.loop hpre condition.derives_pieces hpost hbody
      simpa [Stmt.pieces] using hwhole
  | .jump j, _ => by cases j <;> constructor
  | .block body, h => .block ((Block.derives_lines (depth + 1) body h).inBraces depth)

theorem Block.derives_lines (depth : Nat) : ∀ b : Block, Block.IsShaped b →
    Stmt.DeriveAll b (tokensOf (Block.lines depth b))
  | [], _ => .nil
  | s :: ss, h => by
      have hs := Stmt.derives_pieces depth s h.1
      have hlines := Stmt.DeriveAll.cons hs (Block.derives_lines depth ss h.2)
      simpa [Block.lines] using hlines

theorem Case.derives_lines (depth : Nat) : ∀ cases : List Case, Case.AreShaped cases →
    Case.DeriveAll cases (tokensOf (Case.lines depth cases))
  | [], _ => .nil
  | ⟨none, body⟩ :: cases, h => by
      have hbody := (Block.derives_lines (depth + 1) body h.2.1).inBraces depth
      rw [h.1 rfl]
      simpa [Case.lines, casePieces] using Case.DeriveAll.default hbody
  | ⟨some value, body⟩ :: cases, h => by
      have hbody := (Block.derives_lines (depth + 1) body h.2.1).inBraces depth
      have hcase := Case.DeriveAll.case value.derives_token hbody
        (Case.derives_lines depth cases h.2.2)
      simpa [Case.lines, casePieces] using hcase

end

theorem Program.derives_pieces {p : Program} (h : Block.IsShaped p.root) :
    p.Derives (tokensOf (Block.pieces 0 p.root)) :=
  (Block.derives_lines 1 p.root h).inBraces 0

end Derivations

end YulPruner
