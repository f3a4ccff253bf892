import YulPruner.Proofs.Token.Tile

namespace YulPruner

theorem layTiles_covered (p : Position) (covered : Nat) (text : List Char) :
    layTiles p covered text = layTiles p 0 (text.drop covered) := by
  induction covered generalizing text with
  | zero => rw [List.drop_zero]
  | succ covered ih =>
      cases text with
      | nil => simp [layTiles]
      | cons c cs => rw [layTiles, ih, List.drop_succ_cons]

theorem layTiles_of_fits (before : List Char) {t : Tile} {rest : List Char} (h : t.Fits rest) :
    layTiles (.behind before) 0 (t.text ++ rest) =
      (layTiles (.behind (before ++ t.text)) 0 rest).map (·.push (.behind before) t.token) := by
  obtain ⟨c, cs, htext, ht⟩ := h.tile
  have hrest : (cs ++ rest).drop (t.text.length - 1) = rest := by
    rw [htext, List.length_cons, Nat.add_sub_cancel, List.drop_left]
  rw [htext, List.cons_append, layTiles, ht]
  simp only
  rw [layTiles_covered, hrest, Position.after_behind, htext]

theorem layTiles_gap (before : List Char) {gap rest : List Char} (h : Gap gap rest) :
    layTiles (.behind before) 0 (gap ++ rest) = layTiles (.behind (before ++ gap)) 0 rest := by
  induction h generalizing before with
  | nil => rw [List.nil_append, List.append_nil]
  | @cons filler gap rest hfiller _ ih =>
      have hfits : (Tile.mk none filler).Fits (gap ++ rest) := hfiller
      have hlay := layTiles_of_fits before hfits
      rw [List.append_assoc, hlay, ih, List.append_assoc]
      cases layTiles (.behind (before ++ (filler ++ gap))) 0 rest <;> rfl

theorem Tiling.layTiles {before text : List Char} {s : TokenStream} (h : Tiling before text s) :
    layTiles (.behind before) 0 text = .ok s := by
  induction h with
  | @finish before gap hgap =>
      have hlay := layTiles_gap before hgap
      rwa [List.append_nil, YulPruner.layTiles] at hlay
  | @token before gap lexeme rest t s hgap hlexeme _ ih =>
      have hfits : (Tile.mk (some t) lexeme).Fits rest := hlexeme
      rw [List.append_assoc, layTiles_gap before hgap, layTiles_of_fits _ hfits, ih]
      rfl

theorem tiling_of_layTiles {before text : List Char} {s : TokenStream}
    (h : layTiles (.behind before) 0 text = .ok s) : Tiling before text s := by
  -- A tile is not empty, so what is left behind it is shorter.
  induction hlength : text.length using Nat.strong_induction_on generalizing before text s with
  | _ n ih =>
      cases text with
      | nil =>
          cases h
          have hwhole : Tiling before [] ⟨[], .behind (before ++ [])⟩ := .finish .nil
          rwa [List.append_nil] at hwhole
      | cons c cs =>
          cases ht : tile c cs with
          | error fault =>
              rw [layTiles, ht] at h
              cases h
          | ok t =>
              obtain ⟨rest, htext, hfits⟩ := fits_tile ht
              rw [htext, layTiles_of_fits before hfits] at h
              cases hrest : layTiles (.behind (before ++ t.text)) 0 rest with
              | error e =>
                  rw [hrest] at h
                  cases h
              | ok u =>
                  rw [hrest] at h
                  cases h
                  obtain ⟨d, ds, hd, -⟩ := hfits.tile
                  have hshorter : rest.length < n := by
                    rw [← hlength, htext, hd, List.cons_append, List.length_cons,
                      List.length_append]
                    omega
                  have htiling := ih rest.length hshorter hrest rfl
                  rw [htext]
                  obtain ⟨token, tileText⟩ := t
                  cases token with
                  | none => exact htiling.filler hfits
                  | some t => exact htiling.lexeme hfits

theorem Tiling.tokenize {source : String} {s : TokenStream} (h : Tiling [] source.toList s) :
    tokenize source = .ok s := h.layTiles

theorem tiling_of_tokenize {source : String} {s : TokenStream} (h : tokenize source = .ok s) :
    Tiling [] source.toList s := tiling_of_layTiles h

/-- The tokenizer reads a text as a stream if and only if the text can be cut into the tokens of
the stream, each as long as it can be and each at its position, with gaps around them. -/
theorem tokenize_eq_ok_iff (source : String) (s : TokenStream) :
    tokenize source = .ok s ↔ Tiling [] source.toList s :=
  ⟨tiling_of_tokenize, Tiling.tokenize⟩

/-- A word that begins like a keyword, tokens without a gap, a number with zeros in front, a comment
that opens with the mark that would close it and goes on over two lines, a wide space, escapes, and a
comment that ends with the text. -/
def commented : String :=
  "let lets:=007\x7b/*/\n*/\u3000\x7d0xfF->\"\\\"\\n\"true//end"

def commentedStream : TokenStream where
  tokens := [⟨⟨1, 1⟩, .keyword .declare⟩, ⟨⟨1, 5⟩, .identifier "lets"⟩, ⟨⟨1, 9⟩, .mark .assign⟩,
    ⟨⟨1, 11⟩, .number 7⟩, ⟨⟨1, 14⟩, .mark .leftBrace⟩, ⟨⟨2, 4⟩, .mark .rightBrace⟩,
    ⟨⟨2, 5⟩, .number 255⟩, ⟨⟨2, 9⟩, .mark .arrow⟩, ⟨⟨2, 11⟩, .string "\"\n"⟩,
    ⟨⟨2, 17⟩, .keyword .true⟩]
  finish := ⟨2, 26⟩

theorem tokenize_eq_ok_iff_commented :
    tokenize commented = .ok commentedStream ∧ Tiling [] commented.toList commentedStream := by
  have hrun : tokenize commented = .ok commentedStream := by decide
  exact ⟨hrun, (tokenize_eq_ok_iff commented commentedStream).mp hrun⟩

end YulPruner
