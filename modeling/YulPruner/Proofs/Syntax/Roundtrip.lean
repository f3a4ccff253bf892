import YulPruner.Proofs.Syntax.Completeness
import YulPruner.Proofs.Syntax.Layout
import YulPruner.Proofs.Token.Lexer
import Mathlib.Tactic.TFAE

namespace YulPruner

theorem Lexeme.isIdentifier {x : Name} {text rest : List Char}
    (h : Lexeme (.identifier x) text rest) : IsIdentifier x := by
  cases h with
  | identifier hx => exact hx

theorem Tiling.isIdentifier {before text : List Char} {s : TokenStream} (h : Tiling before text s)
    {x : Name} (hx : .identifier x ∈ s.kinds) : IsIdentifier x := by
  induction h with
  | finish => cases hx
  | token _ hlexeme _ ih =>
      rcases List.mem_cons.mp hx with rfl | hx
      · exact hlexeme.isIdentifier
      · exact ih hx

theorem parse_eq_ok {source : String} {p : Program} (h : parse source = .ok p) :
    ∃ s, tokenize source = .ok s ∧ p.Derives s.kinds := by
  cases hs : tokenize source with
  | error e =>
      rw [parse, hs] at h
      cases h
  | ok s => exact ⟨s, rfl, (parse_eq_ok_iff hs p).mp h⟩

theorem wellFormed_of_parse {source : String} {p : Program} (h : parse source = .ok p) :
    p.WellFormed := by
  obtain ⟨s, hs, hderives⟩ := parse_eq_ok h
  refine ⟨fun x hx => ?_, Block.Derives.isShaped hderives⟩
  exact (tiling_of_tokenize hs).isIdentifier (hderives.mem_names_iff.mpr hx)

theorem Program.toList_text (p : Program) :
    p.text.toList = (Block.pieces 0 p.root).flatMap (·.text.toList) := by
  rw [Program.text, Block.text, render, String.toList_join, List.flatMap_map]

theorem Program.WellFormed.parse_text {p : Program} (h : p.WellFormed) : parse p.text = .ok p := by
  have hderives := p.derives_pieces h.shape
  have happart : Apart (Block.pieces 0 p.root) := apart_inBraces.mpr (Block.apart_lines 1 p.root)
  have hnames : ∀ x, .identifier x ∈ tokensOf (Block.pieces 0 p.root) → IsIdentifier x :=
    fun x hx => h.names x (hderives.mem_names_iff.mp hx)
  obtain ⟨s, hs, hkinds⟩ := exists_tiling happart hnames []
  rw [← p.toList_text] at hs
  rw [parse_eq_ok_iff hs.tokenize, hkinds]
  exact hderives

/-- A program is well-formed if and only if it has a text, and then it is what its own text
spells. -/
theorem tfae_wellFormed (p : Program) :
    List.TFAE [p.WellFormed, ∃ source, parse source = .ok p, parse p.text = .ok p] := by
  tfae_have 1 → 3 := Program.WellFormed.parse_text
  tfae_have 3 → 2 := fun h => ⟨p.text, h⟩
  tfae_have 2 → 1 := fun ⟨_, h⟩ => wellFormed_of_parse h
  tfae_finish

end YulPruner
