import YulPruner.Proofs.Syntax.Progress
import YulPruner.Proofs.Syntax.Roundtrip
import YulPruner.Proofs.Syntax.Viable

namespace YulPruner

namespace TokenStream

/-- The tokens, and the end of the text as the last one. -/
def ended (s : TokenStream) : List (Option Token) := s.kinds.map some ++ [none]

def positions (s : TokenStream) : List Position := s.tokens.map Located.position ++ [s.finish]

variable {s w : TokenStream} {ts us : List Token}

theorem getElem?_positions {n : Nat} (hn : n ≤ s.tokens.length) :
    s.positions[n]? = some (s.drop n).position := by
  obtain ⟨tokens, finish⟩ := s
  induction tokens generalizing n with
  | nil =>
      obtain rfl : n = 0 := Nat.le_zero.mp hn
      rfl
  | cons t tokens ih =>
      cases n with
      | zero => rfl
      | succ n => exact ih (Nat.le_of_succ_le_succ hn)

theorem ended_eq (h : s.kinds = ts ++ us) : s.ended = ts.map some ++ (us.map some ++ [none]) := by
  rw [ended, h, List.map_append, List.append_assoc]

theorem take_ended (h : s.kinds = ts ++ us) : s.ended.take ts.length = ts.map some := by
  rw [ended_eq h]
  exact List.take_left' (List.length_map _)

theorem take_succ_ended (h : s.kinds = ts ++ us) :
    s.ended.take (ts.length + 1) = ts.map some ++ [us.head?] := by
  rw [List.take_add_one, take_ended h, ended_eq h, List.getElem?_append_right (by simp)]
  cases us <;> simp

theorem kinds_of_prefix {o : Option Token} (h : ts.map some ++ [o] <+: w.ended) :
    ∃ vs, w.kinds = ts ++ vs ∧ vs.head? = o := by
  rw [ended] at h
  generalize w.kinds = ws at h
  induction ts generalizing ws with
  | nil => cases ws <;> simp_all
  | cons t ts ih =>
      cases ws with
      | nil => simp at h
      | cons u ws =>
          obtain ⟨htu, h⟩ := List.cons_prefix_cons.mp h
          obtain ⟨vs, rfl, hvs⟩ := ih ws h
          exact ⟨vs, by rw [Option.some_inj.mp htu, List.cons_append], hvs⟩

end TokenStream

def spaced (ts : List Token) : List Piece := ts.flatMap fun t => [.token t, .space]

theorem apart_spaced (ts : List Token) : Apart (spaced ts) := by
  induction ts with
  | nil => exact apart_nil
  | cons t ts ih => exact (apart_cons_cons Piece.fuses_space).mpr ih

theorem tokensOf_spaced (ts : List Token) : tokensOf (spaced ts) = ts := by
  induction ts with
  | nil => rfl
  | cons t ts ih => exact congrArg (t :: ·) ih

theorem exists_tokenize {ts : List Token} (h : ∀ x, .identifier x ∈ ts → IsIdentifier x) :
    ∃ source s, tokenize source = .ok s ∧ s.kinds = ts := by
  rw [← tokensOf_spaced ts] at h
  obtain ⟨s, hs, hkinds⟩ := exists_tiling (apart_spaced ts) h []
  refine ⟨render (spaced ts), s, ?_, hkinds.trans (tokensOf_spaced ts)⟩
  rw [← List.flatMap_map, ← String.toList_join] at hs
  exact hs.tokenize

namespace Parser.Along

variable {α : Type} {x : Parser α} {c : Course α} {s w : TokenStream} {e : ParseError}

theorem position_eq {s' : TokenStream} (h : Along x c s) (hx : x s = .error e s') :
    ∃ n ≤ s.tokens.length, s' = s.drop n ∧ e.position = s'.position := by
  obtain ⟨taken, rest, v, hs, -, hrun⟩ := h
  have hlength : taken.length ≤ s.tokens.length := by
    have hkinds := congrArg List.length hs
    simp only [TokenStream.kinds, List.length_map, List.length_append] at hkinds
    omega
  rw [hx] at hrun
  cases v with
  | ok a => cases hrun
  | error fault =>
      cases hrun
      exact ⟨taken.length, hlength, rfl, rfl⟩

/-- Streams that agree up to the token at which a parser fails in one of them fail both. -/
theorem fails_alike {s' : TokenStream} {ts vs : List Token} (h : Along x c s) (h' : Along x c w)
    (hx : x s = .error e s') (hs : s.kinds = ts ++ s'.kinds) (hw : w.kinds = ts ++ vs)
    (hhead : vs.head? = s'.kinds.head?) : ∃ e' w', x w = .error e' w' := by
  obtain ⟨taken, rest, v, htaken, hgoes, hrun⟩ := h
  obtain ⟨taken', rest', v', htaken', hgoes', hrun'⟩ := h'
  rw [hx] at hrun
  cases v with
  | ok a => cases hrun
  | error fault =>
      cases hrun
      rw [TokenStream.kinds_drop_length htaken] at hs hhead
      obtain rfl : taken = ts := List.append_cancel_right (htaken.symm.trans hs)
      obtain ⟨rfl, rfl⟩ := hgoes'.unique (hgoes.congr_rest hhead.symm) (htaken'.symm.trans hw)
      exact ⟨_, _, hrun'⟩

end Parser.Along

theorem program_of_parse_error {source : String} {s : TokenStream} {e : ParseError}
    (hs : tokenize source = .ok s) (he : parse source = .error e) :
    ∃ s', Parser.program s = .error e s' := by
  rw [parse, hs] at he
  simp only [bind, Except.bind, EStateM.run] at he
  cases hrun : Parser.program s with
  | ok p rest =>
      rw [hrun] at he
      cases he
  | error e' s' =>
      rw [hrun] at he
      cases he
      exact ⟨s', rfl⟩

/-- The parser reports the first token with which the text cannot begin a program, or the end of the
text if that is what cannot stand there. -/
theorem parse_error_position {source : String} {s : TokenStream} {e : ParseError}
    (hs : tokenize source = .ok s) (he : parse source = .error e) :
    ∃ i, s.positions[i]? = some e.position ∧
      (∃ source' w p, tokenize source' = .ok w ∧ parse source' = .ok p ∧
        s.ended.take i <+: w.ended) ∧
      ∀ w p rest, Parser.program.run w = .ok p rest → ¬ s.ended.take (i + 1) <+: w.ended := by
  obtain ⟨s', hrun⟩ := program_of_parse_error hs he
  obtain ⟨ts, hts, p, us, hp, hus⟩ := Parser.fails_program s e s' hrun
  obtain ⟨n, hn, rfl, hposition⟩ := (Parser.along_program s).position_eq hrun
  obtain rfl : n = ts.length := by
    have hlength := congrArg List.length hts
    simp only [TokenStream.kinds, TokenStream.drop, List.length_map, List.length_append,
      List.length_drop] at hlength
    omega
  refine ⟨ts.length, ?_, ?_, fun w q rest hq hprefix => ?_⟩
  · rw [TokenStream.getElem?_positions hn, hposition]
  · have hnames : ∀ x, .identifier x ∈ ts ++ us → IsIdentifier x := by
      intro x hx
      rcases List.mem_append.mp hx with hx | hx
      · exact (tiling_of_tokenize hs).isIdentifier (hts ▸ List.mem_append_left _ hx)
      · exact hus x hx
    obtain ⟨source', w, hw, hkinds⟩ := exists_tokenize hnames
    refine ⟨source', w, p, hw, (parse_eq_ok_iff hw p).mpr (hkinds ▸ hp), ?_⟩
    rw [TokenStream.take_ended hts, TokenStream.ended_eq hkinds]
    exact List.prefix_append _ _
  · rw [TokenStream.take_succ_ended hts] at hprefix
    obtain ⟨vs, hw, hhead⟩ := TokenStream.kinds_of_prefix hprefix
    obtain ⟨e', w', herror⟩ := (Parser.along_program s).fails_alike (Parser.along_program w) hrun hts
      hw hhead
    cases hq.symm.trans herror

/-- A name is no statement, as the brace behind it tells. -/
theorem parse_error_position_bareName : parse "\x7b x \x7d" = .error ⟨⟨1, 5⟩, .bareExpression⟩ ∧
    (∃ source w p, tokenize source = .ok w ∧ parse source = .ok p ∧
      [some (.mark .leftBrace), some (.identifier "x")] <+: w.ended) ∧
    ∀ w p rest, Parser.program.run w = .ok p rest →
      ¬ [some (.mark .leftBrace), some (.identifier "x"), some (.mark .rightBrace)] <+: w.ended := by
  have htokens : tokenize "\x7b x \x7d" = .ok ⟨[⟨⟨1, 1⟩, .mark .leftBrace⟩,
      ⟨⟨1, 3⟩, .identifier "x"⟩, ⟨⟨1, 5⟩, .mark .rightBrace⟩], ⟨1, 6⟩⟩ := by cbv
  have herror : parse "\x7b x \x7d" = .error ⟨⟨1, 5⟩, .bareExpression⟩ := by cbv
  obtain ⟨i, hi, hviable, hhopeless⟩ := parse_error_position htokens herror
  have hsame : ([⟨1, 1⟩, ⟨1, 3⟩, ⟨1, 5⟩, ⟨1, 6⟩] : List Position)[2]? =
      [⟨1, 1⟩, ⟨1, 3⟩, ⟨1, 5⟩, ⟨1, 6⟩][i]? := hi.symm
  obtain rfl : 2 = i := (List.getElem?_inj (by decide) (by decide)).mp hsame
  exact ⟨herror, hviable, hhopeless⟩

end YulPruner
