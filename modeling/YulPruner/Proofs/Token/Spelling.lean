import YulPruner.Proofs.Token.Numeral

namespace YulPruner

/-- Spellings of these run on with a letter or a digit behind them. -/
def Token.fuses : Token → Bool
  | .identifier _ | .number _ | .keyword _ => true
  | .string _ | .mark _ => false

theorem quoted_escape (value : List Char) : Quoted value (value.flatMap escapeChar) := by
  induction value with
  | nil => exact .nil
  | cons c value ih =>
      rw [List.flatMap_cons, escapeChar.eq_def]
      split
      · exact .escape (by decide) ih
      · exact .escape (by decide) ih
      · exact .escape (by decide) ih
      · exact .escape (by decide) ih
      · next hquote hbackslash hnewline _ =>
        have hc : c ∉ ['"', '\\', '\n'] := by
          simp only [List.mem_cons, List.not_mem_nil, or_false, not_or]
          exact ⟨hquote, hbackslash, hnewline⟩
        exact .plain hc ih

theorem toList_quote (s : String) :
    (quote s).toList = '"' :: s.toList.flatMap escapeChar ++ ['"'] := by
  simp [quote]

theorem numeral_repr (n : Nat) : Numeral n.repr.toList n := by
  rw [Nat.toList_repr]
  refine numeral_of_numeral? ?_
  have hall : (Nat.toDigits 10 n).all Char.isDigit = true := by
    rw [List.all_eq_true]
    exact fun c hc => Nat.isDigit_of_mem_toDigits (by decide) (by decide) hc
  rw [numeral?.eq_def]
  split
  · next heq =>
    rw [heq] at hall
    simp [Char.isDigit] at hall
  · rw [if_pos ⟨Nat.toDigits_ne_nil, hall⟩, Nat.ofDigitChars_toDigits (by decide) (by decide)]

theorem isAlphanum_of_not_continuesWord {c : Char} (h : ¬ ContinuesWord c) :
    c.isAlphanum = false := by
  simp only [ContinuesWord, BeginsWord, not_or, Bool.not_eq_true] at h
  simp [Char.isAlphanum, h]

theorem Token.lexeme_spelling {t : Token} (hx : ∀ x, t = .identifier x → IsIdentifier x)
    {rest : List Char} (hrest : t.fuses = true → ∀ c ∈ rest.head?, ¬ ContinuesWord c) :
    Lexeme t t.spelling.toList rest := by
  cases t with
  | identifier x => exact .identifier (hx x rfl) (hrest rfl)
  | number n =>
      refine .number (numeral_repr n.toNat) fun c hc => ?_
      exact isAlphanum_of_not_continuesWord (hrest rfl c hc)
  | string s =>
      rw [Token.spelling, toList_quote]
      have hstring : Lexeme (.string (String.ofList s.toList)) _ rest :=
        .string (quoted_escape s.toList)
      rwa [String.ofList_toList] at hstring
  | keyword k => exact .keyword k (hrest rfl)
  | mark m => exact .mark m

theorem Token.head_spelling {t : Token} (h : t.fuses = false) :
    ∃ c cs, t.spelling.toList = c :: cs ∧ ¬ ContinuesWord c := by
  cases t with
  | string s => exact ⟨'"', _, toList_quote s, by decide⟩
  | mark m => cases m <;> exact ⟨_, _, rfl, by decide⟩
  | identifier | number | keyword => cases h

end YulPruner
