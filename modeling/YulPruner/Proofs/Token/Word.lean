import YulPruner.Token.Lexer
import Mathlib.Data.List.Basic

namespace YulPruner

/-- The 25 characters that separate tokens. -/
def IsWhite (c : Char) : Prop :=
  c.toNat ∈ [0x09, 0x0A, 0x0B, 0x0C, 0x0D, 0x20, 0x85, 0xA0, 0x1680, 0x2000, 0x2001, 0x2002, 0x2003,
    0x2004, 0x2005, 0x2006, 0x2007, 0x2008, 0x2009, 0x200A, 0x2028, 0x2029, 0x202F, 0x205F, 0x3000]

def BeginsWord (c : Char) : Prop := c.isAlpha = true ∨ c = '_' ∨ c = '$'

def ContinuesWord (c : Char) : Prop := BeginsWord c ∨ c.isDigit = true ∨ c = '.'

instance : DecidablePred IsWhite := fun _ => inferInstanceAs (Decidable (_ ∈ _))

instance : DecidablePred BeginsWord := fun _ => inferInstanceAs (Decidable (_ ∨ _))

instance : DecidablePred ContinuesWord := fun _ => inferInstanceAs (Decidable (_ ∨ _))

section Characters

variable {c : Char}

theorem isBlank_iff : isBlank c = true ↔ IsWhite c := by
  simp only [isBlank, blankRanges, IsWhite, List.any_cons, List.any_nil, Bool.or_eq_true,
    Bool.and_eq_true, decide_eq_true_eq, Bool.false_eq_true, List.mem_cons, List.not_mem_nil, or_false]
  omega

theorem isNameStart_iff : isNameStart c = true ↔ BeginsWord c := by
  simp [isNameStart, BeginsWord, or_assoc]

theorem isNamePart_iff : isNamePart c = true ↔ ContinuesWord c := by
  simp [isNamePart, ContinuesWord, isNameStart_iff, or_assoc]

theorem isNamePart_eq_false : isNamePart c = false ↔ ¬ ContinuesWord c := by
  rw [← isNamePart_iff, Bool.not_eq_true]

end Characters

/-- A letter, an underscore or a dollar sign, and behind it any number of these, of digits and of
periods. -/
def IsWord (text : List Char) : Prop :=
  ∃ c cs, text = c :: cs ∧ BeginsWord c ∧ ∀ d ∈ cs, ContinuesWord d

/-- A word that is no keyword. -/
structure IsIdentifier (x : Name) : Prop where
  isWord : IsWord x.toList
  not_keyword (k : Keyword) : k.word ≠ x

theorem Keyword.isWord (k : Keyword) : IsWord k.word.toList := by
  cases k <;> exact ⟨_, _, rfl, by decide,
    fun d hd => isNamePart_iff.mp (List.all_eq_true.mp rfl d hd)⟩

theorem Keyword.mem_all (k : Keyword) : k ∈ Keyword.all := by
  cases k <;> decide

theorem Keyword.ofWord?_word (k : Keyword) : Keyword.ofWord? k.word = some k := by
  cases k <;> decide

theorem Keyword.ofWord?_eq_none {word : String} :
    Keyword.ofWord? word = none ↔ ∀ k : Keyword, k.word ≠ word := by
  rw [Keyword.ofWord?, List.find?_eq_none]
  constructor
  · intro h k hk
    exact h k k.mem_all (by simpa using hk)
  · intro h k _ hk
    exact h k (by simpa using hk)

theorem Token.ofWord_word (k : Keyword) : Token.ofWord k.word = .keyword k := by
  rw [Token.ofWord, k.ofWord?_word]

theorem Token.ofWord_of_isIdentifier {x : Name} (h : IsIdentifier x) :
    Token.ofWord x = .identifier x := by
  rw [Token.ofWord, Keyword.ofWord?_eq_none.mpr h.not_keyword]

theorem IsWord.ofWord_cases {word : String} (h : IsWord word.toList) :
    (∃ k : Keyword, word = k.word ∧ Token.ofWord word = .keyword k) ∨
      (IsIdentifier word ∧ Token.ofWord word = .identifier word) := by
  by_cases hk : ∃ k : Keyword, k.word = word
  · obtain ⟨k, rfl⟩ := hk
    exact Or.inl ⟨k, rfl, Token.ofWord_word k⟩
  · have hword : IsIdentifier word := ⟨h, fun k hkw => hk ⟨k, hkw⟩⟩
    exact Or.inr ⟨hword, Token.ofWord_of_isIdentifier hword⟩

end YulPruner
