import YulPruner.Proofs.Syntax.Pieces
import YulPruner.Proofs.Token.Spelling

namespace YulPruner

def indentChar (depth : Nat) (c : Char) : List Char :=
  if c = '\n' then c :: List.replicate (4 * depth) ' ' else [c]

/-- The text with spaces behind every newline, four for each level. -/
def indented (depth : Nat) (text : String) : String :=
  String.ofList (text.toList.flatMap (indentChar depth))

def Piece.deepen (depth : Nat) : Piece → Piece
  | .newline e => .newline (depth + e)
  | .token t => .token t
  | .space => .space

section Deepen

variable (d : Nat)

@[simp] theorem Piece.deepen_token (t : Token) : (Piece.token t).deepen d = .token t := rfl

@[simp] theorem Piece.deepen_space : Piece.space.deepen d = .space := rfl

@[simp] theorem Piece.deepen_newline (e : Nat) :
    (Piece.newline e).deepen d = .newline (d + e) := rfl

@[simp] theorem Piece.deepen_mark (m : Mark) : (Piece.mark m).deepen d = .mark m := rfl

@[simp] theorem Piece.deepen_keyword (k : Keyword) : (Piece.keyword k).deepen d = .keyword k := rfl

@[simp] theorem Piece.deepen_name (x : Name) : (Piece.name x).deepen d = .name x := rfl

theorem map_deepen_commaSeparated {items : List (List Piece)}
    (h : ∀ item ∈ items, item.map (Piece.deepen d) = item) :
    (commaSeparated items).map (Piece.deepen d) = commaSeparated items := by
  induction items with
  | nil => rfl
  | cons a items ih =>
      have ha := h a List.mem_cons_self
      cases items with
      | nil => simpa [commaSeparated] using ha
      | cons b items =>
          have hrest := ih fun item hitem => h item (List.mem_cons_of_mem _ hitem)
          simp [commaSeparated_cons_cons, ha, hrest]

@[simp] theorem map_deepen_namePieces (names : List Name) :
    (namePieces names).map (Piece.deepen d) = namePieces names := by
  apply map_deepen_commaSeparated
  intro item hitem
  obtain ⟨x, -, rfl⟩ := List.mem_map.mp hitem
  rfl

@[simp] theorem Expr.map_deepen_pieces (e : Expr) : e.pieces.map (Piece.deepen d) = e.pieces := by
  induction e using Expr.argumentInduction with
  | var x => rfl
  | literal l => rfl
  | call f arguments ih =>
      have harguments : (commaSeparated (Expr.piecesAll arguments)).map (Piece.deepen d) =
          commaSeparated (Expr.piecesAll arguments) := by
        rw [Expr.piecesAll_eq_map]
        exact map_deepen_commaSeparated d (List.forall_mem_map.mpr ih)
      simp [Expr.pieces, harguments]

@[simp] theorem map_deepen_headerPieces (name : Name) (parameters returns : List Name) :
    (headerPieces name parameters returns).map (Piece.deepen d) =
      headerPieces name parameters returns := by
  cases returns <;> simp [headerPieces]

@[simp] theorem map_deepen_casePieces (value : Option Literal) :
    (casePieces value).map (Piece.deepen d) = casePieces value := by
  cases value <;> simp [casePieces]

@[simp] theorem map_deepen_inBraces (e : Nat) (lines : List Piece) :
    (inBraces e lines).map (Piece.deepen d) = inBraces (d + e) (lines.map (Piece.deepen d)) := by
  rw [inBraces, inBraces, List.isEmpty_map]
  split <;> simp

mutual

theorem Stmt.pieces_add (e : Nat) : ∀ s : Stmt, s.pieces (d + e) = (s.pieces e).map (Piece.deepen d)
  | .expression e' => by simp [Stmt.pieces]
  | .assignment targets value => by simp [Stmt.pieces, valuePieces]
  | .declaration names none => by simp [Stmt.pieces]
  | .declaration names (some value) => by simp [Stmt.pieces, valuePieces]
  | .function ⟨name, parameters, returns, body⟩ => by
      have hbody := Block.lines_add (e + 1) body
      simp [Stmt.pieces, Nat.add_assoc, hbody]
  | .conditional condition body => by
      have hbody := Block.lines_add (e + 1) body
      simp [Stmt.pieces, Nat.add_assoc, hbody]
  | .switch scrutinee cases => by simp [Stmt.pieces, Case.lines_add e cases]
  | .loop pre condition post body => by
      have hpre := Block.lines_add (e + 1) pre
      have hpost := Block.lines_add (e + 1) post
      have hbody := Block.lines_add (e + 1) body
      simp [Stmt.pieces, Nat.add_assoc, hpre, hpost, hbody]
  | .jump j => rfl
  | .block body => by
      have hbody := Block.lines_add (e + 1) body
      simp [Stmt.pieces, Nat.add_assoc, hbody]

theorem Block.lines_add (e : Nat) : ∀ b : Block,
    Block.lines (d + e) b = (Block.lines e b).map (Piece.deepen d)
  | [] => rfl
  | s :: ss => by simp [Block.lines, Stmt.pieces_add e s, Block.lines_add e ss]

theorem Case.lines_add (e : Nat) : ∀ cases : List Case,
    Case.lines (d + e) cases = (Case.lines e cases).map (Piece.deepen d)
  | [] => rfl
  | ⟨value, body⟩ :: cases => by
      have hbody := Block.lines_add (e + 1) body
      simp [Case.lines, Nat.add_assoc, hbody, Case.lines_add e cases]

end

end Deepen

section Text

variable {d : Nat}

theorem flatMap_indentChar_of_not_mem {cs : List Char} (h : '\n' ∉ cs) :
    cs.flatMap (indentChar d) = cs := by
  induction cs with
  | nil => rfl
  | cons c cs ih =>
      rw [List.mem_cons, not_or] at h
      obtain ⟨hc, hcs⟩ := h
      rw [List.flatMap_cons, ih hcs, indentChar, if_neg (Ne.symm hc), List.singleton_append]

theorem toList_indentation (depth : Nat) :
    (indentation depth).toList = List.replicate (4 * depth) ' ' := String.toList_ofList

theorem toList_render (pieces : List Piece) :
    (render pieces).toList = pieces.flatMap (·.text.toList) := by
  rw [render, String.toList_join, List.flatMap_map]

theorem newline_not_mem_escapeChar (c : Char) : '\n' ∉ escapeChar c := by
  rw [escapeChar.eq_def]
  split
  · decide
  · decide
  · decide
  · decide
  · next hnewline _ =>
    rw [List.mem_singleton]
    exact Ne.symm hnewline

theorem newline_not_mem_quote (s : String) : '\n' ∉ (quote s).toList := by
  rw [toList_quote]
  simp [newline_not_mem_escapeChar]

/-- Of the tokens, only names can be spelt with a newline. -/
theorem Token.newline_not_mem {t : Token} (h : ∀ x, t = .identifier x → '\n' ∉ x.toList) :
    '\n' ∉ t.spelling.toList := by
  cases t with
  | identifier x => exact h x rfl
  | number n =>
      intro hn
      rw [Token.spelling, Nat.toString_eq_repr, Nat.toList_repr] at hn
      have hdigit := Nat.isDigit_of_mem_toDigits (by decide) (by decide) hn
      cases hdigit
  | string s => exact newline_not_mem_quote s
  | keyword k => cases k <;> decide
  | mark m => cases m <;> decide

theorem Literal.newline_not_mem_text (l : Literal) : '\n' ∉ l.text.toList := by
  apply Token.newline_not_mem
  intro x hx
  cases l with
  | number | string => cases hx
  | bool b => cases b <;> cases hx

theorem Piece.toList_text_deepen {piece : Piece}
    (h : ∀ x, piece = .name x → '\n' ∉ x.toList) :
    (piece.deepen d).text.toList = piece.text.toList.flatMap (indentChar d) := by
  cases piece with
  | token t =>
      refine (flatMap_indentChar_of_not_mem (Token.newline_not_mem ?_)).symm
      rintro x rfl
      exact h x rfl
  | space => simp [Piece.text, indentChar]
  | newline e =>
      have hspaces : '\n' ∉ List.replicate (4 * e) ' ' := by simp
      simp [Piece.text, toList_indentation, indentChar, flatMap_indentChar_of_not_mem hspaces,
        Nat.mul_add]

theorem render_deepen {pieces : List Piece}
    (h : ∀ x, .identifier x ∈ tokensOf pieces → '\n' ∉ x.toList) :
    render (pieces.map (Piece.deepen d)) = indented d (render pieces) := by
  have hpiece : ∀ piece ∈ pieces, (piece.deepen d).text.toList =
      piece.text.toList.flatMap (indentChar d) := by
    intro piece hmem
    apply Piece.toList_text_deepen
    rintro x rfl
    exact h x (List.mem_filterMap.mpr ⟨_, hmem, rfl⟩)
  rw [← String.toList_inj, indented, String.toList_ofList, toList_render, toList_render,
    List.flatMap_map, List.flatMap_assoc]
  exact List.flatMap_congr hpiece

end Text

section Names

variable {x : Name}

theorem mem_tokensOf_namePieces {names : List Name} :
    .identifier x ∈ tokensOf (namePieces names) ↔ x ∈ names := by
  cases names with
  | nil => simp [namePieces, commaSeparated]
  | cons y names => exact (separated_namePieces (List.cons_ne_nil y names)).mem_names_iff

theorem Expr.mem_tokensOf_pieces (bound : Nat) (e : Expr) :
    .identifier x ∈ tokensOf e.pieces ↔ x ∈ (Item.value e bound).names := by
  rw [e.derives_pieces.mem_iff bound, Expr.Mentions, Item.names, List.mem_append, List.mem_map]

theorem mem_tokensOf_headerPieces {name : Name} {parameters returns : List Name} :
    .identifier x ∈ tokensOf (headerPieces name parameters returns) ↔
      x ∈ name :: parameters ++ returns := by
  cases returns <;> simp [headerPieces, mem_tokensOf_namePieces]

theorem not_mem_tokensOf_casePieces (value : Option Literal) :
    .identifier x ∉ tokensOf (casePieces value) := by
  cases value with
  | none => simp [casePieces]
  | some l => simpa [casePieces] using l.derives_token.not_mem

mutual

theorem Stmt.mem_tokensOf_pieces (depth : Nat) : ∀ s : Stmt,
    .identifier x ∈ tokensOf (s.pieces depth) ↔ x ∈ s.items.flatMap Item.names
  | .expression e => by
      have he := e.mem_tokensOf_pieces (x := x) 0
      simp [Stmt.pieces, Stmt.items, he]
  | .assignment targets e => by
      have he := e.mem_tokensOf_pieces (x := x) targets.length
      simp [Stmt.pieces, valuePieces, Stmt.items, Item.names, mem_tokensOf_namePieces, he]
  | .declaration names none => by
      simp [Stmt.pieces, Stmt.items, Item.names, mem_tokensOf_namePieces]
  | .declaration names (some e) => by
      have he := e.mem_tokensOf_pieces (x := x) names.length
      simp [Stmt.pieces, valuePieces, Stmt.items, Item.names, mem_tokensOf_namePieces, he]
  | .function ⟨name, parameters, returns, body⟩ => by
      have hbody := Block.mem_tokensOf_lines (depth + 1) body
      simp [Stmt.pieces, tokensOf_inBraces, Stmt.items, Item.names, mem_tokensOf_headerPieces,
        hbody, or_assoc]
  | .conditional condition body => by
      have hcondition := condition.mem_tokensOf_pieces (x := x) 1
      have hbody := Block.mem_tokensOf_lines (depth + 1) body
      simp [Stmt.pieces, tokensOf_inBraces, Stmt.items, Item.names, hcondition, hbody, or_assoc]
  | .switch scrutinee cases => by
      have hscrutinee := scrutinee.mem_tokensOf_pieces (x := x) 1
      have hcases := Case.mem_tokensOf_lines depth cases
      simp [Stmt.pieces, Stmt.items, Item.names, hscrutinee, hcases, or_assoc]
  | .loop pre condition post body => by
      have hcondition := condition.mem_tokensOf_pieces (x := x) 1
      have hpre := Block.mem_tokensOf_lines (depth + 1) pre
      have hpost := Block.mem_tokensOf_lines (depth + 1) post
      have hbody := Block.mem_tokensOf_lines (depth + 1) body
      simp [Stmt.pieces, tokensOf_inBraces, Stmt.items, Item.names, hcondition, hpre, hpost, hbody,
        or_assoc]
  | .jump j => by simp [Stmt.pieces, Stmt.items]
  | .block body => by
      have hbody := Block.mem_tokensOf_lines (depth + 1) body
      simp [Stmt.pieces, tokensOf_inBraces, Stmt.items, hbody]

theorem Block.mem_tokensOf_lines (depth : Nat) : ∀ b : Block,
    .identifier x ∈ tokensOf (Block.lines depth b) ↔ x ∈ (Block.items b).flatMap Item.names
  | [] => by simp [Block.lines, Block.items]
  | s :: ss => by
      have hs := Stmt.mem_tokensOf_pieces depth s
      have hss := Block.mem_tokensOf_lines depth ss
      rw [Block.lines, List.cons_append, tokensOf_newline, tokensOf_append, List.mem_append, hs,
        hss, Block.items, List.flatMap_append, List.mem_append]

theorem Case.mem_tokensOf_lines (depth : Nat) : ∀ cases : List Case,
    .identifier x ∈ tokensOf (Case.lines depth cases) ↔ x ∈ (Case.items cases).flatMap Item.names
  | [] => by simp [Case.lines, Case.items]
  | ⟨value, body⟩ :: cases => by
      have hvalue := not_mem_tokensOf_casePieces (x := x) value
      have hbody := Block.mem_tokensOf_lines (depth + 1) body
      have hcases := Case.mem_tokensOf_lines depth cases
      simp [Case.lines, tokensOf_inBraces, Case.items, hvalue, hbody, hcases]

end

end Names

/-- No name in the block is spelt with a newline. -/
def Block.Unbroken (b : Block) : Prop := ∀ x ∈ Block.names b, '\n' ∉ x.toList

instance : DecidablePred Block.Unbroken := fun b =>
  inferInstanceAs (Decidable (∀ x ∈ Block.names b, '\n' ∉ x.toList))

section Unbroken

variable {s : Stmt} {b : Block}

/-- Deeper down, a statement is printed as on its own but for the indentation. -/
theorem Stmt.render_pieces (h : Block.Unbroken [s]) (depth : Nat) :
    render (s.pieces depth) = indented depth s.text := by
  have hnames : ∀ x, .identifier x ∈ tokensOf (s.pieces 0) → '\n' ∉ x.toList := by
    intro x hx
    apply h x
    rw [Block.names_singleton]
    exact (Stmt.mem_tokensOf_pieces 0 s).mp hx
  calc render (s.pieces depth) = render ((s.pieces 0).map (Piece.deepen depth)) := by
        rw [← Stmt.pieces_add, Nat.add_zero]
    _ = indented depth s.text := render_deepen hnames

theorem Block.Unbroken.block (h : b.Unbroken) : Block.Unbroken [.block b] := by
  intro x hx
  rw [Block.names_singleton, Stmt.items] at hx
  exact h x hx

theorem Block.render_pieces (h : b.Unbroken) (depth : Nat) :
    render (Block.pieces depth b) = indented depth (Block.text b) :=
  Stmt.render_pieces h.block depth

end Unbroken

end YulPruner
