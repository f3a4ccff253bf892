import YulPruner.Proofs.Token.Tiling
import Mathlib.Data.List.Forall2

namespace YulPruner

section Characters

theorem exists_ofNat_of_le {c : Char} (h : c ≤ 'z') : ∃ n : Fin 128, c = Char.ofNat n := by
  have hc : c.toNat ≤ 122 := h
  exact ⟨⟨c.toNat, by omega⟩, (Char.ofNat_toNat c).symm⟩

theorem le_of_isAlpha {c : Char} (h : c.isAlpha = true) : c ≤ 'z' := by
  have hcases : c.isUpper = true ∨ c.isLower = true := Bool.or_eq_true_iff.mp h
  rcases hcases with hupper | hlower
  · have hrange : 'A' ≤ c ∧ c ≤ 'Z' := of_decide_eq_true hupper
    exact Char.le_trans hrange.2 (by decide)
  · exact of_decide_eq_true (Bool.and_eq_true_iff.mp hlower).2

theorem le_of_isDigit {c : Char} (h : c.isDigit = true) : c ≤ 'z' := by
  have hrange : c ≤ '9' := of_decide_eq_true (Bool.and_eq_true_iff.mp h).2
  exact Char.le_trans hrange (by decide)

theorem ContinuesWord.le {c : Char} (h : ContinuesWord c) : c ≤ 'z' := by
  rcases h with (hletter | rfl | rfl) | hdigit | rfl
  · exact le_of_isAlpha hletter
  · decide
  · decide
  · exact le_of_isDigit hdigit
  · decide

theorem ContinuesWord.not_isWhite {c : Char} (h : ContinuesWord c) : ¬ IsWhite c := by
  obtain ⟨n, rfl⟩ := exists_ofNat_of_le h.le
  revert n
  decide

theorem BeginsWord.isDigit {c : Char} (h : BeginsWord c) : c.isDigit = false := by
  obtain ⟨n, rfl⟩ := exists_ofNat_of_le (ContinuesWord.le (Or.inl h))
  revert n
  decide

end Characters

section Numbers

theorem isDecimalDigit_iff (c : Char) (d : Nat) :
    IsDecimalDigit c d ↔ c.isDigit = true ∧ c.toNat - '0'.toNat = d := by
  constructor
  · intro h
    have htable : ∀ x ∈ "0123456789".toList.zipIdx,
        x.1.isDigit = true ∧ x.1.toNat - '0'.toNat = x.2 := by decide
    exact htable (c, d) h
  · rintro ⟨hc, rfl⟩
    obtain ⟨n, rfl⟩ := exists_ofNat_of_le (le_of_isDigit hc)
    revert n
    unfold IsDecimalDigit
    decide

theorem le_of_isHexDigit {c : Char} (h : isHexDigit c = true) : c ≤ 'z' := by
  simp only [isHexDigit, Char.isDigit, Char.le_def, UInt32.le_iff_toNat_le, ge_iff_le,
    Bool.or_eq_true, Bool.and_eq_true, decide_eq_true_eq] at h ⊢
  rcases h with (h | h) | h <;> exact h.2.trans (by decide)

theorem isHexDigit_iff (c : Char) (d : Nat) :
    IsHexDigit c d ↔ isHexDigit c = true ∧ hexDigitValue c = d := by
  constructor
  · intro h
    have htable : ∀ x ∈ "0123456789abcdef".toList.zipIdx ++ "0123456789ABCDEF".toList.zipIdx,
        isHexDigit x.1 = true ∧ hexDigitValue x.1 = x.2 := by decide
    exact htable (c, d) (List.mem_append.mpr h)
  · rintro ⟨hc, rfl⟩
    obtain ⟨n, rfl⟩ := exists_ofNat_of_le (le_of_isHexDigit hc)
    revert n
    unfold IsHexDigit
    decide

theorem foldl_eq_ofDigits {α : Type} (b : Nat) (value : α → Nat) (text : List α) :
    text.foldl (fun acc c => b * acc + value c) 0 = Nat.ofDigits b (text.map value).reverse := by
  induction text using List.reverseRecOn with
  | nil => rfl
  | append_singleton text c ih =>
      rw [List.foldl_append, List.foldl_cons, List.foldl_nil, ih, List.map_append,
        List.reverse_append]
      simp [Nat.ofDigits_cons, Nat.add_comm]

theorem forall₂_digits {D : Char → Nat → Prop} {isDigit : Char → Bool} {value : Char → Nat}
    (hD : ∀ c d, D c d ↔ isDigit c = true ∧ value c = d) {text : List Char} {digits : List Nat} :
    List.Forall₂ D text digits ↔ text.all isDigit = true ∧ digits = text.map value := by
  have hfun : D = fun c d => isDigit c = true ∧ value c = d := by
    funext c d
    exact propext (hD c d)
  rw [hfun, List.forall₂_and_left, ← List.forall₂_map_left_iff, List.forall₂_eq_eq_eq,
    List.all_eq_true, eq_comm]

theorem numeral?_of_numeral {text : List Char} {n : Nat} (h : Numeral text n) :
    numeral? text = some n := by
  cases h with
  | @decimal _ digits hne h =>
      obtain ⟨hall, rfl⟩ := (forall₂_digits isDecimalDigit_iff).mp h
      rw [← foldl_eq_ofDigits, numeral?.eq_def]
      split
      · simp [Char.isDigit] at hall
      · rw [if_pos ⟨hne, hall⟩]
        rfl
  | @hexadecimal text digits hne h =>
      obtain ⟨hall, rfl⟩ := (forall₂_digits isHexDigit_iff).mp h
      rw [← foldl_eq_ofDigits, numeral?, if_pos ⟨hne, hall⟩]
      rfl

theorem numeral_of_numeral? {text : List Char} {n : Nat} (h : numeral? text = some n) :
    Numeral text n := by
  rw [numeral?.eq_def] at h
  split at h
  · next digits =>
    split_ifs at h with hall
    cases h
    rw [hexValue, foldl_eq_ofDigits]
    exact .hexadecimal hall.1 ((forall₂_digits isHexDigit_iff).mpr ⟨hall.2, rfl⟩)
  · split_ifs at h with hall
    cases h
    rw [Nat.ofDigitChars, foldl_eq_ofDigits]
    exact .decimal hall.1 ((forall₂_digits isDecimalDigit_iff).mpr ⟨hall.2, rfl⟩)

theorem isAlphanum_of_isDigit {c : Char} (h : c.isDigit = true) : c.isAlphanum = true := by
  rw [Char.isAlphanum, h, Bool.or_true]

theorem isAlphanum_of_isHexDigit {c : Char} (h : isHexDigit c = true) : c.isAlphanum = true := by
  obtain ⟨n, rfl⟩ := exists_ofNat_of_le (le_of_isHexDigit h)
  revert n
  decide

theorem Numeral.isDigit {text : List Char} {n : Nat} (h : Numeral text n) :
    ∃ c cs, text = c :: cs ∧ c.isDigit = true ∧ ∀ d ∈ cs, d.isAlphanum = true := by
  cases h with
  | decimal hne h =>
      obtain ⟨hall, -⟩ := (forall₂_digits isDecimalDigit_iff).mp h
      rw [List.all_eq_true] at hall
      obtain ⟨c, cs, rfl⟩ := List.exists_cons_of_ne_nil hne
      exact ⟨c, cs, rfl, hall c List.mem_cons_self,
        fun d hd => isAlphanum_of_isDigit (hall d (List.mem_cons_of_mem _ hd))⟩
  | @hexadecimal digits _ _ h =>
      obtain ⟨hall, -⟩ := (forall₂_digits isHexDigit_iff).mp h
      rw [List.all_eq_true] at hall
      refine ⟨'0', 'x' :: digits, rfl, rfl, fun d hd => ?_⟩
      rcases List.mem_cons.mp hd with rfl | hd
      · rfl
      · exact isAlphanum_of_isHexDigit (hall d hd)

end Numbers

end YulPruner
