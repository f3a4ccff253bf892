import YulPruner.Proofs.Syntax.Progress
import YulPruner.Proofs.Syntax.Roundtrip

namespace YulPruner

namespace Fragment

def kind : Fragment → FragmentKind
  | .expression _ => .expression
  | .block _ => .block

def pieces : Fragment → List Piece
  | .expression e => e.pieces
  | .block b => b.pieces 0

def text : Fragment → String
  | .expression e => e.text
  | .block b => b.text

def names : Fragment → List Name
  | .expression e => (Item.value e 1).names
  | .block b => Block.names b

/-- What the grammar asks of a fragment beyond its type. -/
def IsShaped : Fragment → Prop
  | .expression _ => True
  | .block b => Block.IsShaped b

/-- The fragments that have a text. -/
structure WellFormed (f : Fragment) : Prop where
  names : ∀ x ∈ f.names, IsIdentifier x
  shape : f.IsShaped

/-- The texts in a row with gaps between them: `gap n` stands in front of the last `n` fragments. -/
def joined (gap : Nat → String) : List Fragment → String
  | [] => ""
  | [f] => f.text
  | f :: g :: fs => f.text ++ gap (fs.length + 1) ++ joined gap (g :: fs)

variable {f : Fragment}

theorem toList_text (f : Fragment) : f.text.toList = f.pieces.flatMap (·.text.toList) := by
  have hrender : f.text = render f.pieces := by cases f <;> rfl
  rw [hrender, render, String.toList_join, List.flatMap_map]

theorem apart_pieces (f : Fragment) : Apart f.pieces := by
  cases f with
  | expression e => exact e.apart_pieces
  | block b => exact apart_inBraces.mpr (Block.apart_lines 1 b)

theorem derives_block {b : Block} (h : Block.IsShaped b) : Block.Derives b (tokensOf (b.pieces 0)) :=
  (Block.derives_lines 1 b h).inBraces 0

theorem WellFormed.isIdentifier (h : f.WellFormed) {x : Name}
    (hx : .identifier x ∈ tokensOf f.pieces) : IsIdentifier x := by
  refine h.names x ?_
  cases f with
  | expression e =>
      have hmentions := (e.derives_pieces.mem_iff 1).mp hx
      simpa [Fragment.names, Item.names, Expr.Mentions] using hmentions
  | block b => exact List.mem_flatMap.mpr ((derives_block h.shape).mem_iff.mp hx)

/-- No fragment begins with what would make a call of a name in front of it. -/
theorem head_tokens (f : Fragment) : ∃ t ts, tokensOf f.pieces = t :: ts ∧ t ≠ .mark .leftParen := by
  cases f with
  | expression e =>
      cases e with
      | literal l => exact ⟨l.token, [], rfl, by cases l <;> nofun⟩
      | var | call => exact ⟨_, _, rfl, nofun⟩
  | block b => exact ⟨_, _, tokensOf_inBraces 0 _, nofun⟩

theorem WellFormed.takes (h : f.WellFormed) :
    Parser.Takes (parser f.kind) (· ≠ some (.mark .leftParen)) (tokensOf f.pieces) f := by
  cases f with
  | expression e => exact (Parser.takes_expression e.derives_pieces).map Fragment.expression
  | block b =>
      have hblock := (Parser.takes_block (derives_block h.shape)).map Fragment.block
      exact hblock.of_any _

theorem finish_of_run {kind : FragmentKind} {s s' : TokenStream}
    (h : (parser kind).run s = .ok f s') : s'.finish = s.finish := by
  obtain ⟨taken, rest, v, -, -, hrun⟩ := along kind s
  rw [EStateM.run, hrun] at h
  cases v with
  | ok a => cases h; rfl
  | error fault => cases h

end Fragment

/-- White space, and not none of it. -/
structure IsSpacing (gap : String) : Prop where
  ne_empty : gap ≠ ""
  white : ∀ c ∈ gap.toList, IsWhite c

theorem IsSpacing.head? {gap : String} (h : IsSpacing gap) (rest : List Char) :
    ∀ c ∈ (gap.toList ++ rest).head?, ¬ ContinuesWord c := by
  have hchars : gap.toList ≠ [] := fun hnil => h.ne_empty (String.toList_eq_nil_iff.mp hnil)
  obtain ⟨c, cs, hcs⟩ := List.exists_cons_of_ne_nil hchars
  have hc := h.white c (hcs ▸ List.mem_cons_self)
  rw [hcs]
  rintro _ ⟨⟩
  exact fun hpart => hpart.not_isWhite hc

section Joined

variable {gap : Nat → String} (hgap : ∀ n, IsSpacing (gap n))

include hgap

theorem exists_tiling_joined {fragments : List Fragment} (h : ∀ f ∈ fragments, f.WellFormed)
    (before : List Char) :
    ∃ s, Tiling before (Fragment.joined gap fragments).toList s ∧
      s.kinds = fragments.flatMap fun f => tokensOf f.pieces := by
  induction fragments generalizing before with
  | nil => exact ⟨_, .finish .nil, rfl⟩
  | cons f fragments ih =>
      have hf := h f List.mem_cons_self
      cases fragments with
      | nil =>
          rw [Fragment.joined, f.toList_text, List.flatMap_singleton]
          exact exists_tiling f.apart_pieces (fun _ => hf.isIdentifier) before
      | cons g fragments =>
          have hspacing := hgap (fragments.length + 1)
          obtain ⟨s, hs, hkinds⟩ := ih (fun g hg => h g (List.mem_cons_of_mem _ hg))
            (before ++ f.text.toList ++ (gap (fragments.length + 1)).toList)
          rw [f.toList_text] at hs
          obtain ⟨u, hu, hukinds⟩ := exists_tiling_append (hspacing.head? _) f.apart_pieces
            (fun _ => hf.isIdentifier) (hs.blanks hspacing.white)
          refine ⟨u, ?_, ?_⟩
          · rwa [Fragment.joined, String.toList_append, String.toList_append, f.toList_text,
              List.append_assoc]
          · rw [hukinds, hkinds]
            rfl

end Joined

theorem readFragments_kinds {fragments : List Fragment} (h : ∀ f ∈ fragments, f.WellFormed)
    {s : TokenStream} (hs : s.kinds = fragments.flatMap fun f => tokensOf f.pieces) :
    readFragments (fragments.map Fragment.kind) s = (fragments.map .ok, ⟨[], s.finish⟩) := by
  induction fragments generalizing s with
  | nil =>
      have htokens : s.tokens = [] := List.map_eq_nil_iff.mp hs
      rw [← htokens]
      rfl
  | cons f fragments ih =>
      -- What the next fragment begins with is all that this one has to know of the rest.
      have hfollow : (fragments.flatMap fun f => tokensOf f.pieces).head? ≠
          some (.mark .leftParen) := by
        cases fragments with
        | nil => nofun
        | cons g fragments =>
            obtain ⟨t, ts, htokens, ht⟩ := g.head_tokens
            simpa [htokens] using ht
      obtain ⟨s', hrun, hs'⟩ := (h f List.mem_cons_self).takes s _ hs hfollow
      have hrest := ih (fun g hg => h g (List.mem_cons_of_mem _ hg)) hs'
      rw [Fragment.finish_of_run hrun] at hrest
      rw [List.map_cons, readFragments, EStateM.run, hrun]
      simp only [hrest, List.map_cons]

/-- Well-formed expressions and blocks with any white space between their texts are read as what
they are, one after the other, and nothing is left behind the last one. -/
theorem readFragments_joined {fragments : List Fragment} (h : ∀ f ∈ fragments, f.WellFormed)
    {gap : Nat → String} (hgap : ∀ n, IsSpacing (gap n)) :
    ∃ s, tokenize (Fragment.joined gap fragments) = .ok s ∧
      readFragments (fragments.map Fragment.kind) s = (fragments.map .ok, ⟨[], s.finish⟩) := by
  obtain ⟨s, hs, hkinds⟩ := exists_tiling_joined hgap h []
  exact ⟨s, hs.tokenize, readFragments_kinds h hkinds⟩

def mixedFragments : List Fragment :=
  [.expression (.var "x"), .block [.expression (.call "f" [.var "x"])], .expression (.call "f" []),
    .block []]

theorem readFragments_joined_mixedFragments :
    ∃ s, tokenize "x \x7b\n    f(x)\n\x7d\nf() \x7b \x7d" = .ok s ∧
      readFragments [.expression, .block, .expression, .block] s =
        (mixedFragments.map .ok, ⟨[], s.finish⟩) := by
  have hx : IsIdentifier "x" := ⟨⟨'x', [], rfl, by decide, nofun⟩, fun k => by cases k <;> decide⟩
  have hf : IsIdentifier "f" := ⟨⟨'f', [], rfl, by decide, nofun⟩, fun k => by cases k <;> decide⟩
  have hnames : ∀ f ∈ mixedFragments, ∀ x ∈ f.names, x = "x" ∨ x = "f" := by decide
  have hwell : ∀ f ∈ mixedFragments, f.WellFormed := by
    refine fun f hmem => ⟨fun x hname => ?_, ?_⟩
    · rcases hnames f hmem x hname with rfl | rfl
      · exact hx
      · exact hf
    · revert f
      simp [mixedFragments, Fragment.IsShaped, Block.IsShaped, Stmt.IsShaped]
  have hgap : ∀ n, IsSpacing (if n = 2 then "\n" else " ") := by
    intro n
    split <;> exact ⟨by decide, by simp [IsWhite]⟩
  have htext : Fragment.joined (fun n => if n = 2 then "\n" else " ") mixedFragments =
      "x \x7b\n    f(x)\n\x7d\nf() \x7b \x7d" := by decide +kernel
  rw [← htext]
  exact readFragments_joined hwell hgap

end YulPruner
