import YulPruner.Proofs.Token.Word
import Mathlib.Data.List.DropRight
import Mathlib.Data.Nat.Digits.Defs

namespace YulPruner

/-- A piece of a gap, and the text behind it. -/
inductive Filler : List Char → List Char → Prop
  | blank {c rest} (hc : IsWhite c) : Filler [c] rest
  | line {body rest} (hbody : '\n' ∉ body) : Filler ('/' :: '/' :: body ++ ['\n']) rest
  | lastLine {body} (hbody : '\n' ∉ body) : Filler ('/' :: '/' :: body) []
  /-- The first mark that closes the comment is the last one. -/
  | block {body rest} (hbody : ¬ ['*', '/'] <:+: body ++ ['*']) :
      Filler ('/' :: '*' :: body ++ ['*', '/']) rest

/-- Any number of fillers in a row, and the text behind them. -/
inductive Gap : List Char → List Char → Prop
  | nil {rest} : Gap [] rest
  | cons {filler gap rest} (hfiller : Filler filler (gap ++ rest)) (h : Gap gap rest) :
      Gap (filler ++ gap) rest

/-- A text, and how it is spelled between quotes. -/
inductive Quoted : List Char → List Char → Prop
  | nil : Quoted [] []
  | plain {c value text} (hc : c ∉ ['"', '\\', '\n']) (h : Quoted value text) :
      Quoted (c :: value) (c :: text)
  | escape {c v value text}
      (hc : (c, v) ∈ [('n', '\n'), ('t', '\t'), ('"', '"'), ('\\', '\\')])
      (h : Quoted value text) : Quoted (v :: value) ('\\' :: c :: text)

def IsDecimalDigit (c : Char) (value : Nat) : Prop := (c, value) ∈ "0123456789".toList.zipIdx

def IsHexDigit (c : Char) (value : Nat) : Prop :=
  (c, value) ∈ "0123456789abcdef".toList.zipIdx ∨ (c, value) ∈ "0123456789ABCDEF".toList.zipIdx

/-- A number as it is spelled, and its value. -/
inductive Numeral : List Char → Nat → Prop
  | decimal {text digits} (hne : text ≠ []) (h : List.Forall₂ IsDecimalDigit text digits) :
      Numeral text (Nat.ofDigits 10 digits.reverse)
  | hexadecimal {text digits} (hne : text ≠ []) (h : List.Forall₂ IsHexDigit text digits) :
      Numeral ('0' :: 'x' :: text) (Nat.ofDigits 16 digits.reverse)

/-- A token, its spelling and the text behind it. Numbers are less than two to the power of 128, as
words are. -/
inductive Lexeme : Token → List Char → List Char → Prop
  | mark (m : Mark) {rest} : Lexeme (.mark m) m.symbol.toList rest
  | string {value text rest} (h : Quoted value text) :
      Lexeme (.string (String.ofList value)) ('"' :: text ++ ['"']) rest
  | keyword (k : Keyword) {rest} (hrest : ∀ c ∈ rest.head?, ¬ ContinuesWord c) :
      Lexeme (.keyword k) k.word.toList rest
  | identifier {x : Name} {rest} (hx : IsIdentifier x)
      (hrest : ∀ c ∈ rest.head?, ¬ ContinuesWord c) :
      Lexeme (.identifier x) x.toList rest
  | number {text rest} {n : Word} (h : Numeral text n.toNat)
      (hrest : ∀ c ∈ rest.head?, c.isAlphanum = false) :
      Lexeme (.number n) text rest

/-- The position behind a text: one line more than it has newlines, one column more than there are
characters behind the last of them. -/
def Position.behind (before : List Char) : Position :=
  ⟨1 + before.count '\n', 1 + (before.rtakeWhile (· ≠ '\n')).length⟩

/-- Behind the text `before`, a text is cut into the tokens of a stream and the gaps around them. -/
inductive Tiling : List Char → List Char → TokenStream → Prop
  | finish {before gap} (hgap : Gap gap []) : Tiling before gap ⟨[], .behind (before ++ gap)⟩
  | token {before gap lexeme rest t s} (hgap : Gap gap (lexeme ++ rest))
      (hlexeme : Lexeme t lexeme rest) (h : Tiling (before ++ gap ++ lexeme) rest s) :
      Tiling before (gap ++ lexeme ++ rest) ⟨⟨.behind (before ++ gap), t⟩ :: s.tokens, s.finish⟩

theorem Position.next_behind (before : List Char) (c : Char) :
    (behind before).next c = behind (before ++ [c]) := by
  by_cases hc : c = '\n'
  · subst hc
    simp [next, behind, Nat.add_assoc]
  · simp [next, behind, hc, Nat.add_assoc]

theorem Position.after_behind (before text : List Char) :
    (behind before).after text = behind (before ++ text) := by
  induction text generalizing before with
  | nil => rw [List.append_nil, after, List.foldl_nil]
  | cons c text ih =>
      rw [after, List.foldl_cons, next_behind, ← after, ih, List.append_assoc, List.singleton_append]

/-- A filler in front of a tiling belongs to the first gap. -/
theorem Tiling.filler {before text rest : List Char} {s : TokenStream} (hfiller : Filler text rest)
    (h : Tiling (before ++ text) rest s) : Tiling before (text ++ rest) s := by
  cases h with
  | @finish _ gap hgap =>
      rw [List.append_assoc]
      refine .finish (.cons ?_ hgap)
      rwa [List.append_nil]
  | @token _ gap lexeme rest t s hgap hlexeme h =>
      have hwhole : Tiling before (text ++ gap ++ lexeme ++ rest)
          ⟨⟨.behind (before ++ (text ++ gap)), t⟩ :: s.tokens, s.finish⟩ := by
        refine .token (.cons (by rwa [List.append_assoc] at hfiller) hgap) hlexeme ?_
        simpa only [List.append_assoc] using h
      simpa only [List.append_assoc] using hwhole

theorem Tiling.blanks {before text rest : List Char} {s : TokenStream}
    (htext : ∀ c ∈ text, IsWhite c) (h : Tiling (before ++ text) rest s) :
    Tiling before (text ++ rest) s := by
  induction text generalizing before with
  | nil => rwa [List.append_nil] at h
  | cons c text ih =>
      rw [← List.singleton_append, ← List.append_assoc] at h
      have hrest := ih (fun d hd => htext d (List.mem_cons_of_mem c hd)) h
      have hfiller : Filler [c] (text ++ rest) := .blank (htext c List.mem_cons_self)
      have hwhole := filler hfiller hrest
      exact hwhole

theorem Tiling.lexeme {before text rest : List Char} {t : Token} {s : TokenStream}
    (hlexeme : Lexeme t text rest) (h : Tiling (before ++ text) rest s) :
    Tiling before (text ++ rest) ⟨⟨.behind before, t⟩ :: s.tokens, s.finish⟩ := by
  have hwhole : Tiling before ([] ++ text ++ rest)
      ⟨⟨.behind (before ++ []), t⟩ :: s.tokens, s.finish⟩ :=
    .token .nil hlexeme (by simpa using h)
  simpa using hwhole

end YulPruner
