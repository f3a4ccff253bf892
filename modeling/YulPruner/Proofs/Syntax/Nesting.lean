import YulPruner.Proofs.Analysis.FirstViolation
import YulPruner.Proofs.Syntax.Depth

namespace YulPruner

/-- A statement in which one block is missing. -/
inductive Holder where
  | function (name : Name) (parameters returns : List Name)
  | conditional (condition : Expr)
  | arm (scrutinee : Expr) (earlier : List Case) (value : Option Literal) (later : List Case)
  | loopPre (condition : Expr) (post body : Block)
  | loopPost (pre : Block) (condition : Expr) (body : Block)
  | loopBody (pre : Block) (condition : Expr) (post : Block)
  | block

def Holder.fill (b : Block) : Holder → Stmt
  | .function name parameters returns => .function ⟨name, parameters, returns, b⟩
  | .conditional condition => .conditional condition b
  | .arm scrutinee earlier value later => .switch scrutinee (earlier ++ ⟨value, b⟩ :: later)
  | .loopPre condition post body => .loop b condition post body
  | .loopPost pre condition body => .loop pre condition b body
  | .loopBody pre condition post => .loop pre condition post b
  | .block => .block b

/-- A block in which a block of one of its statements is missing. -/
structure Layer where
  earlier : Block
  holder : Holder
  later : Block

def nest : List Layer → Block → Block
  | [], b => b
  | layer :: layers, b => layer.earlier ++ layer.holder.fill (nest layers b) :: layer.later

section Pieces

theorem Block.lines_append (depth : Nat) (a b : Block) :
    Block.lines depth (a ++ b) = Block.lines depth a ++ Block.lines depth b := by
  induction a with
  | nil => rfl
  | cons s ss ih => simp [Block.lines, ih]

theorem Case.lines_append (depth : Nat) (cs ds : List Case) :
    Case.lines depth (cs ++ ds) = Case.lines depth cs ++ Case.lines depth ds := by
  induction cs with
  | nil => rfl
  | cons c cs ih => simp [Case.lines, ih]

theorem Holder.pieces_fill (holder : Holder) (depth : Nat) : ∃ before after, ∀ b,
    (holder.fill b).pieces depth = before ++ Block.pieces depth b ++ after := by
  cases holder with
  | function name parameters returns =>
      refine ⟨headerPieces name parameters returns ++ [.space], [], fun b => ?_⟩
      simp [Holder.fill, Stmt.pieces, Block.pieces]
  | conditional condition =>
      refine ⟨[.keyword .conditional, .space] ++ condition.pieces ++ [.space], [], fun b => ?_⟩
      simp [Holder.fill, Stmt.pieces, Block.pieces]
  | arm scrutinee earlier value later =>
      refine ⟨[.keyword .switch, .space] ++ scrutinee.pieces ++ Case.lines depth earlier ++
        .newline depth :: casePieces value ++ [.space], Case.lines depth later, fun b => ?_⟩
      simp [Holder.fill, Stmt.pieces, Block.pieces, Case.lines_append, Case.lines]
  | loopPre condition post body =>
      refine ⟨[.keyword .loop, .space], [.space] ++ condition.pieces ++ [.space] ++
        Block.pieces depth post ++ [.space] ++ Block.pieces depth body, fun b => ?_⟩
      simp [Holder.fill, Stmt.pieces, Block.pieces]
  | loopPost pre condition body =>
      refine ⟨[.keyword .loop, .space] ++ Block.pieces depth pre ++ [.space] ++ condition.pieces ++
        [.space], [.space] ++ Block.pieces depth body, fun b => ?_⟩
      simp [Holder.fill, Stmt.pieces, Block.pieces]
  | loopBody pre condition post =>
      refine ⟨[.keyword .loop, .space] ++ Block.pieces depth pre ++ [.space] ++ condition.pieces ++
        [.space] ++ Block.pieces depth post ++ [.space], [], fun b => ?_⟩
      simp [Holder.fill, Stmt.pieces, Block.pieces]
  | block => exact ⟨[], [], fun b => by simp [Holder.fill, Stmt.pieces, Block.pieces]⟩

theorem Block.pieces_append_cons (depth : Nat) (earlier later : Block) : ∃ before after, ∀ s : Stmt,
    Block.pieces depth (earlier ++ s :: later) = before ++ s.pieces (depth + 1) ++ after := by
  refine ⟨[.mark .leftBrace] ++ Block.lines (depth + 1) earlier ++ [.newline (depth + 1)],
    Block.lines (depth + 1) later ++ [.newline depth, .mark .rightBrace], fun s => ?_⟩
  rw [Block.pieces, inBraces, if_neg (by simp [Block.lines_append, Block.lines])]
  simp [Block.lines_append, Block.lines]

theorem pieces_nest (layers : List Layer) (depth : Nat) : ∃ before after, ∀ b,
    Block.pieces depth (nest layers b) =
      before ++ Block.pieces (depth + layers.length) b ++ after := by
  induction layers generalizing depth with
  | nil => exact ⟨[], [], fun b => by simp [nest]⟩
  | cons layer layers ih =>
      obtain ⟨opening, closing, hrow⟩ :=
        Block.pieces_append_cons depth layer.earlier layer.later
      obtain ⟨header, trailer, hfill⟩ := layer.holder.pieces_fill (depth + 1)
      obtain ⟨before, after, hinner⟩ := ih (depth + 1)
      refine ⟨opening ++ header ++ before, after ++ trailer ++ closing, fun b => ?_⟩
      rw [nest, hrow, hfill, hinner, List.length_cons, Nat.add_right_comm, Nat.add_assoc]
      simp only [List.append_assoc]

end Pieces

section Occurrence

variable {portions : List Portion} {k depth d bound : Nat} {n m : Node} {s t : Stmt} {e : Expr}

theorem HasChild.mem (h : HasChild portions k n) : .child n ∈ portions := by
  induction h with
  | head => exact List.mem_cons_self
  | tail _ ih => exact List.mem_cons_of_mem _ ih

@[simp] theorem child_not_mem_owned (pieces : List Piece) : .child n ∉ owned pieces := by
  simp [owned]

theorem child_mem_argumentPortions {es : List Expr} (h : .child n ∈ argumentPortions es) :
    ∃ e ∈ es, n = .value e 1 := by
  induction es with
  | nil => cases h
  | cons e es ih =>
      cases es with
      | nil => simpa [argumentPortions] using h
      | cons c es =>
          simp only [argumentPortions, List.cons_append, List.mem_cons, List.mem_append,
            child_not_mem_owned, false_or, Portion.child.injEq] at h
          rcases h with rfl | h
          · exact ⟨e, List.mem_cons_self, rfl⟩
          · obtain ⟨c', hc', rfl⟩ := ih h
            exact ⟨c', List.mem_cons_of_mem _ hc', rfl⟩

theorem child_mem_blockPortions {b : Block} (h : .child (.stmt d s) ∈ blockPortions depth b) :
    s ∈ b ∧ d = depth + 1 := by
  have hlines : .child (.stmt d s) ∈ linePortions (depth + 1) b := by
    rw [blockPortions] at h
    split at h
    · exact absurd h (child_not_mem_owned _)
    · simpa using h
  obtain ⟨t, ht, hchild⟩ := List.mem_flatMap.mp hlines
  simp only [List.mem_cons, reduceCtorEq, List.not_mem_nil, or_false, false_or,
    Portion.child.injEq, Node.stmt.injEq] at hchild
  obtain ⟨rfl, rfl⟩ := hchild
  exact ⟨ht, rfl⟩

/-- A statement inside another one stands in a block that this one holds, one level deeper. -/
theorem HasChild.exists_holder (h : HasChild (Node.stmt depth t).portions k (.stmt d s)) :
    ∃ holder b, t = Holder.fill b holder ∧ s ∈ b ∧ d = depth + 1 := by
  have hmem := h.mem
  cases t with
  | expression e => simp [Node.portions] at hmem
  | assignment targets e => simp [Node.portions, valuePortions] at hmem
  | declaration names e? => cases e? <;> simp [Node.portions, valuePortions] at hmem
  | function f =>
      have hbody : .child (.stmt d s) ∈ blockPortions depth f.body := by
        simpa [Node.portions] using hmem
      obtain ⟨hs, hd⟩ := child_mem_blockPortions hbody
      exact ⟨.function f.name f.parameters f.returns, f.body, rfl, hs, hd⟩
  | conditional condition body =>
      have hbody : .child (.stmt d s) ∈ blockPortions depth body := by
        simpa [Node.portions] using hmem
      obtain ⟨hs, hd⟩ := child_mem_blockPortions hbody
      exact ⟨.conditional condition, body, rfl, hs, hd⟩
  | switch scrutinee cases =>
      have hcases : .child (.stmt d s) ∈ casePortions depth cases := by
        simpa [Node.portions] using hmem
      obtain ⟨c, hc, hchild⟩ := List.mem_flatMap.mp hcases
      have hbody : .child (.stmt d s) ∈ blockPortions depth c.body := by simpa using hchild
      obtain ⟨hs, hd⟩ := child_mem_blockPortions hbody
      obtain ⟨earlier, later, rfl⟩ := List.append_of_mem hc
      exact ⟨.arm scrutinee earlier c.value later, c.body, rfl, hs, hd⟩
  | loop pre condition post body =>
      have hparts : .child (.stmt d s) ∈ blockPortions depth pre ∨
          .child (.stmt d s) ∈ blockPortions depth post ∨
          .child (.stmt d s) ∈ blockPortions depth body := by
        simpa [Node.portions] using hmem
      rcases hparts with hpre | hpost | hbody
      · obtain ⟨hs, hd⟩ := child_mem_blockPortions hpre
        exact ⟨.loopPre condition post body, pre, rfl, hs, hd⟩
      · obtain ⟨hs, hd⟩ := child_mem_blockPortions hpost
        exact ⟨.loopPost pre condition body, post, rfl, hs, hd⟩
      · obtain ⟨hs, hd⟩ := child_mem_blockPortions hbody
        exact ⟨.loopBody pre condition post, body, rfl, hs, hd⟩
  | jump j => simp [Node.portions] at hmem
  | block body =>
      obtain ⟨hs, hd⟩ := child_mem_blockPortions hmem
      exact ⟨.block, body, rfl, hs, hd⟩

theorem HasChild.eq_value (h : HasChild (Node.value e bound).portions k n) :
    ∃ c, n = .value c 1 := by
  have hmem := h.mem
  cases e with
  | var x => exact absurd hmem (child_not_mem_owned [.name x])
  | literal l => exact absurd hmem (child_not_mem_owned [.token l.token])
  | call f arguments =>
      have harguments : .child n ∈ argumentPortions arguments := by
        simpa [Node.portions] using hmem
      obtain ⟨c, -, hn⟩ := child_mem_argumentPortions harguments
      exact ⟨c, hn⟩

theorem Occurs.eq_value (h : Occurs portions k n)
    (hportions : portions = (Node.value e bound).portions) : ∃ c, n = .value c 1 := by
  induction h generalizing e bound with
  | child h =>
      subst hportions
      exact h.eq_value
  | inside h _ ih =>
      subst hportions
      obtain ⟨c, rfl⟩ := h.eq_value
      exact ih rfl

theorem Occurs.exists_layers (h : Occurs portions k m) (hm : m = .stmt d s)
    (hportions : portions = (Node.stmt depth t).portions) :
    ∃ holder layers earlier later, t = Holder.fill (nest layers (earlier ++ s :: later)) holder ∧
      d = depth + layers.length + 1 := by
  induction h generalizing depth t with
  | child h =>
      subst hm hportions
      obtain ⟨holder, b, rfl, hs, rfl⟩ := h.exists_holder
      obtain ⟨earlier, later, rfl⟩ := List.append_of_mem hs
      exact ⟨holder, [], earlier, later, rfl, rfl⟩
  | @inside _ _ n _ _ h hs ih =>
      subst hm hportions
      cases n with
      | value e bound =>
          -- What stands inside an expression is no statement.
          obtain ⟨c, hc⟩ := hs.eq_value rfl
          cases hc
      | stmt d' t' =>
          obtain ⟨holder, b, rfl, ht, rfl⟩ := h.exists_holder
          obtain ⟨before, after, rfl⟩ := List.append_of_mem ht
          obtain ⟨inner, layers, earlier, later, rfl, rfl⟩ := ih rfl rfl
          refine ⟨holder, ⟨before, inner, after⟩ :: layers, earlier, later, rfl, ?_⟩
          rw [List.length_cons]
          omega

/-- A statement of a program stands inside layers, one less than the depth of its line. -/
theorem Program.OccursAt.exists_layers {p : Program} (h : p.OccursAt k (.stmt d s)) :
    ∃ layers earlier later, p.root = nest layers (earlier ++ s :: later) ∧
      d = layers.length + 1 := by
  obtain ⟨holder, layers, earlier, later, hroot, hd⟩ := Occurs.exists_layers h rfl
    (show p.portions = (Node.stmt 0 (.block p.root)).portions from rfl)
  cases holder with
  | block =>
      refine ⟨layers, earlier, later, Stmt.block.inj hroot, ?_⟩
      omega
  | _ => cases hroot

end Occurrence

section Text

theorem render_append (as bs : List Piece) : render (as ++ bs) = render as ++ render bs := by
  rw [render, List.map_append, String.join_append, render, render]

/-- The text around a block is the same for all blocks, and each stands in it with its own text, as
deep as there are layers. -/
theorem text_nest (layers : List Layer) : ∃ before after, ∀ b, Block.Unbroken b →
    Block.text (nest layers b) = before ++ indented layers.length (Block.text b) ++ after := by
  obtain ⟨before, after, hpieces⟩ := pieces_nest layers 0
  refine ⟨render before, render after, fun b hb => ?_⟩
  rw [Block.text, hpieces, render_append, render_append, Nat.zero_add, Block.render_pieces hb]

theorem text_nest_append_cons (layers : List Layer) (earlier later : Block) :
    ∃ before after, ∀ s, Block.Unbroken [s] → Block.text (nest layers (earlier ++ s :: later)) =
      before ++ indented (layers.length + 1) s.text ++ after := by
  obtain ⟨before, after, hnest⟩ := pieces_nest layers 0
  obtain ⟨opening, closing, hrow⟩ := Block.pieces_append_cons (0 + layers.length) earlier later
  refine ⟨render (before ++ opening), render (closing ++ after), fun s hs => ?_⟩
  rw [Block.text, hnest, hrow, Nat.zero_add, ← Stmt.render_pieces hs]
  simp only [render_append, String.append_assoc]

end Text

/-- A tree is printed at any depth with the text that it has on its own, indented by four spaces for
each level. Wherever a block or a statement stands in a program, the text around it does not depend
on it, and literals put no newline into either. -/
theorem text_indented_by_depth :
    (∀ depth s, Block.Unbroken [s] → render (s.pieces depth) = indented depth s.text) ∧
      (∀ depth b, Block.Unbroken b →
        render (Block.pieces depth b) = indented depth (Block.text b)) ∧
      (∀ layers, ∃ before after, ∀ b, Block.Unbroken b →
        Block.text (nest layers b) = before ++ indented layers.length (Block.text b) ++ after) ∧
      (∀ layers earlier later, ∃ before after, ∀ s, Block.Unbroken [s] →
        Block.text (nest layers (earlier ++ s :: later)) =
          before ++ indented (layers.length + 1) s.text ++ after) ∧
      (∀ (p : Program) k d s, p.OccursAt k (.stmt d s) → ∃ layers earlier later,
        p.root = nest layers (earlier ++ s :: later) ∧ d = layers.length + 1) ∧
      ∀ l : Literal, '\n' ∉ l.text.toList :=
  ⟨fun depth _ hs => Stmt.render_pieces hs depth, fun depth _ hb => Block.render_pieces hb depth,
    text_nest, text_nest_append_cons, fun _ _ _ _ h => h.exists_layers,
    Literal.newline_not_mem_text⟩

def quotedNewline : Stmt := .conditional (.call "g" [.literal (.string "a\nb")]) [.jump .leave]

def insideFunction : Layer := ⟨[], .function "f" [] [], []⟩

theorem text_indented_by_depth_quotedNewline :
    quotedNewline.text = "if g(\"a\\nb\") \x7b\n    leave\n\x7d" ∧
      render (quotedNewline.pieces 2) =
        "if g(\"a\\nb\") \x7b\n            leave\n        \x7d" ∧
      (∃ before after, Block.text (nest [insideFunction] [quotedNewline]) =
        before ++ "if g(\"a\\nb\") \x7b\n            leave\n        \x7d" ++ after) ∧
      (∃ before after, Block.text (nest [insideFunction] [quotedNewline]) =
        before ++ indented 1 (Block.text [quotedNewline]) ++ after) ∧
      ∃ layers earlier later, nest [insideFunction] [quotedNewline] =
        nest layers (earlier ++ quotedNewline :: later) ∧ 2 = layers.length + 1 := by
  have hs : Block.Unbroken [quotedNewline] := by decide
  have hdeep : indented 2 quotedNewline.text =
      "if g(\"a\\nb\") \x7b\n            leave\n        \x7d" := by decide
  have hbody : HasChild (Node.stmt 1 (insideFunction.holder.fill [quotedNewline])).portions 8
      (.stmt 2 quotedNewline) :=
    .tail (.tail (.tail (.tail (.tail (.tail (.tail (.tail .head)))))))
  have hat : Program.OccursAt ⟨nest [insideFunction] [quotedNewline]⟩ 10 (.stmt 2 quotedNewline) :=
    .inside (.tail (.tail .head)) (.child hbody)
  obtain ⟨hstmt, -, hnest, hrow, hlayers, -⟩ := text_indented_by_depth
  obtain ⟨opening, closing, hline⟩ := hrow [insideFunction] [] []
  obtain ⟨before, after, hblock⟩ := hnest [insideFunction]
  rw [← hdeep]
  exact ⟨by decide, hstmt 2 quotedNewline hs, ⟨opening, closing, hline quotedNewline hs⟩,
    ⟨before, after, hblock [quotedNewline] hs⟩, hlayers _ _ _ _ hat⟩

end YulPruner
