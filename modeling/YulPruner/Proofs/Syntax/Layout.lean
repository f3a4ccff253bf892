import YulPruner.Proofs.Syntax.Pieces
import YulPruner.Proofs.Token.Spelling
import Mathlib.Data.List.Chain

namespace YulPruner

def Piece.fuses : Piece → Bool
  | .token t => t.fuses
  | _ => false

/-- Of two neighbours, one does not fuse. -/
def Apart (pieces : List Piece) : Prop :=
  pieces.IsChain fun a b => a.fuses = true → b.fuses = false

section Apart

@[simp] theorem Piece.fuses_space : Piece.space.fuses = false := by simp [fuses]

@[simp] theorem Piece.fuses_newline (depth : Nat) : (Piece.newline depth).fuses = false := by simp [fuses]

@[simp] theorem Piece.fuses_mark (m : Mark) : (Piece.mark m).fuses = false := by
  simp [fuses, mark, Token.fuses]

@[simp] theorem apart_nil : Apart [] := .nil

@[simp] theorem apart_singleton (p : Piece) : Apart [p] := .singleton p

variable {p : Piece} {a b : List Piece}

@[simp] theorem apart_cons (hp : p.fuses = false) : Apart (p :: a) ↔ Apart a := by
  rw [Apart, List.isChain_cons]
  exact and_iff_right fun _ _ h => absurd h (by rw [hp]; decide)

theorem Apart.append (ha : Apart a) (hb : Apart b) (h : ∀ p ∈ b.head?, p.fuses = false) :
    Apart (a ++ b) :=
  List.IsChain.append ha hb fun _ _ p hp _ => h p hp

@[simp] theorem apart_append_cons (hp : p.fuses = false) :
    Apart (a ++ p :: b) ↔ Apart a ∧ Apart b := by
  constructor
  · intro h
    obtain ⟨ha, hb, _⟩ := List.isChain_append.mp h
    exact ⟨ha, (apart_cons hp).mp hb⟩
  · rintro ⟨ha, hb⟩
    exact ha.append ((apart_cons hp).mpr hb) (by simpa using hp)

@[simp] theorem apart_cons_cons {q : Piece} (hp : p.fuses = false) :
    Apart (q :: p :: a) ↔ Apart a := by
  have h := apart_append_cons (a := [q]) (b := a) hp
  simpa using h

end Apart

section Trees

theorem apart_commaSeparated {items : List (List Piece)} (h : ∀ item ∈ items, Apart item) :
    Apart (commaSeparated items) := by
  induction items with
  | nil => exact apart_nil
  | cons a items ih =>
      have ha := h a List.mem_cons_self
      cases items with
      | nil => simpa [commaSeparated] using ha
      | cons b items =>
          have hrest := ih fun item hitem => h item (List.mem_cons_of_mem _ hitem)
          simp [commaSeparated_cons_cons, ha, hrest]

@[simp] theorem apart_namePieces (names : List Name) : Apart (namePieces names) := by
  refine apart_commaSeparated fun item hitem => ?_
  obtain ⟨x, _, rfl⟩ := List.mem_map.mp hitem
  exact apart_singleton _

@[simp] theorem apart_inBraces {depth : Nat} {lines : List Piece} :
    Apart (inBraces depth lines) ↔ Apart lines := by
  rw [inBraces]
  split
  · next h => simp [List.isEmpty_iff.mp h]
  · simp

theorem Expr.apart_pieces (e : Expr) : Apart e.pieces := by
  induction e using Expr.argumentInduction with
  | var x => exact apart_singleton _
  | literal l => exact apart_singleton _
  | call f arguments ih =>
      have harguments : Apart (commaSeparated (Expr.piecesAll arguments)) := by
        rw [Expr.piecesAll_eq_map]
        exact apart_commaSeparated (List.forall_mem_map.mpr ih)
      simpa [Expr.pieces] using harguments

theorem apart_headerPieces (name : Name) (parameters returns : List Name) :
    Apart (headerPieces name parameters returns) := by
  cases returns <;> simp [headerPieces]

mutual

theorem Stmt.apart_pieces (depth : Nat) : ∀ s : Stmt, Apart (s.pieces depth)
  | .expression e => e.apart_pieces
  | .assignment _ value => by simp [Stmt.pieces, valuePieces, value.apart_pieces]
  | .declaration _ none => by simp [Stmt.pieces]
  | .declaration _ (some value) => by simp [Stmt.pieces, valuePieces, value.apart_pieces]
  | .function ⟨_, _, _, body⟩ => by
      simp [Stmt.pieces, apart_headerPieces, Block.apart_lines (depth + 1) body]
  | .conditional condition body => by
      simp [Stmt.pieces, condition.apart_pieces, Block.apart_lines (depth + 1) body]
  | .switch scrutinee cases => by
      obtain ⟨hcases, hhead⟩ := Case.apart_lines depth cases
      simpa [Stmt.pieces] using scrutinee.apart_pieces.append hcases hhead
  | .loop pre condition post body => by
      simp [Stmt.pieces, condition.apart_pieces, Block.apart_lines (depth + 1) pre,
        Block.apart_lines (depth + 1) post, Block.apart_lines (depth + 1) body]
  | .jump _ => apart_singleton _
  | .block body => by simp [Stmt.pieces, Block.apart_lines (depth + 1) body]

theorem Block.apart_lines (depth : Nat) : ∀ b : Block, Apart (Block.lines depth b)
  | [] => apart_nil
  | s :: ss => by
      have hrest : ∀ p ∈ (Block.lines depth ss).head?, p.fuses = false := by
        cases ss <;> simp [Block.lines]
      have hlines := (Stmt.apart_pieces depth s).append (Block.apart_lines depth ss) hrest
      simpa [Block.lines] using hlines

theorem Case.apart_lines (depth : Nat) : ∀ cases : List Case,
    Apart (Case.lines depth cases) ∧ ∀ p ∈ (Case.lines depth cases).head?, p.fuses = false
  | [] => ⟨apart_nil, by simp [Case.lines]⟩
  | ⟨value, body⟩ :: cases => by
      have hvalue : Apart (casePieces value) := by
        cases value <;> simp [casePieces]
      have hbody : Apart (inBraces depth (Block.lines (depth + 1) body)) :=
        apart_inBraces.mpr (Block.apart_lines (depth + 1) body)
      obtain ⟨hcases, hhead⟩ := Case.apart_lines depth cases
      have hrest := hbody.append hcases hhead
      refine ⟨?_, by simp [Case.lines]⟩
      simp [Case.lines, hvalue, hrest]

end

end Trees

section Text

theorem isWhite_of_mem_newline {depth : Nat} :
    ∀ c ∈ (Piece.newline depth).text.toList, IsWhite c := by
  intro c hc
  simp only [Piece.text, indentation, String.toList_append, String.toList_ofList, List.mem_append,
    List.mem_replicate] at hc
  rcases hc with hc | ⟨_, rfl⟩
  · rw [List.mem_singleton.mp hc]
    decide
  · decide

theorem Piece.head_text {p : Piece} (h : p.fuses = false) :
    ∃ c cs, p.text.toList = c :: cs ∧ ¬ ContinuesWord c := by
  cases p with
  | token t => exact Token.head_spelling h
  | space => exact ⟨' ', [], rfl, by decide⟩
  | newline depth =>
      refine ⟨'\n', (indentation depth).toList, ?_, by decide⟩
      rw [Piece.text, String.toList_append]
      rfl

variable {rest : List Char} (hrest : ∀ c ∈ rest.head?, ¬ ContinuesWord c)

include hrest

theorem Apart.head_text {p : Piece} {pieces : List Piece} (h : Apart (p :: pieces))
    (hp : p.fuses = true) :
    ∀ c ∈ (pieces.flatMap (·.text.toList) ++ rest).head?, ¬ ContinuesWord c := by
  cases pieces with
  | nil => exact hrest
  | cons q pieces =>
      obtain ⟨c, cs, htext, hc⟩ := Piece.head_text ((List.isChain_cons_cons.mp h).1 hp)
      simp [htext, hc]

/-- Pieces that are kept apart are cut into the tokens among them, also in front of another text that
does not go on with a word or a number. -/
theorem exists_tiling_append {pieces : List Piece} (h : Apart pieces)
    (hx : ∀ x, .identifier x ∈ tokensOf pieces → IsIdentifier x) {before : List Char}
    {u : TokenStream} (hu : Tiling (before ++ pieces.flatMap (·.text.toList)) rest u) :
    ∃ s, Tiling before (pieces.flatMap (·.text.toList) ++ rest) s ∧
      s.kinds = tokensOf pieces ++ u.kinds := by
  induction pieces generalizing before with
  | nil => exact ⟨u, by simpa using hu, rfl⟩
  | cons p pieces ih =>
      have hnames : ∀ x, .identifier x ∈ tokensOf pieces → IsIdentifier x := by
        intro x hmem
        refine hx x ?_
        cases p with
        | token t => exact List.mem_cons_of_mem t hmem
        | space | newline => exact hmem
      rw [List.flatMap_cons, ← List.append_assoc] at hu
      obtain ⟨s, hs, hkinds⟩ := ih h.tail hnames hu
      rw [List.flatMap_cons, List.append_assoc]
      cases p with
      | token t =>
          have hword : ∀ x, t = .identifier x → IsIdentifier x := by
            rintro x rfl
            exact hx x List.mem_cons_self
          have hlexeme := Token.lexeme_spelling hword fun ht => h.head_text hrest ht
          refine ⟨_, hs.lexeme hlexeme, ?_⟩
          rw [tokensOf_token, List.cons_append, ← hkinds]
          rfl
      | space => exact ⟨s, hs.blanks (by simp [Piece.text, IsWhite]), hkinds⟩
      | newline depth => exact ⟨s, hs.blanks isWhite_of_mem_newline, hkinds⟩

omit hrest

theorem exists_tiling {pieces : List Piece} (h : Apart pieces)
    (hx : ∀ x, .identifier x ∈ tokensOf pieces → IsIdentifier x) (before : List Char) :
    ∃ s, Tiling before (pieces.flatMap (·.text.toList)) s ∧ s.kinds = tokensOf pieces := by
  have hnothing : ∀ c ∈ ([] : List Char).head?, ¬ ContinuesWord c := nofun
  have hwhole : ∃ s, Tiling before (pieces.flatMap (·.text.toList) ++ []) s ∧
      s.kinds = tokensOf pieces ++ [] := exists_tiling_append hnothing h hx (.finish .nil)
  rwa [List.append_nil, List.append_nil] at hwhole

end Text

end YulPruner
