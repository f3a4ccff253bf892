import YulPruner.Proofs.Basic
import YulPruner.Proofs.Token.Numeral

namespace YulPruner

section Comments

theorem lineCommentRest_of_newline {body : List Char} (hbody : '\n' ∉ body) (rest : List Char) :
    lineCommentRest (body ++ '\n' :: rest) = body ++ ['\n'] := by
  induction body with
  | nil => simp [lineCommentRest]
  | cons c body ih =>
      rw [List.mem_cons, not_or] at hbody
      rw [List.cons_append, lineCommentRest, if_neg (Ne.symm hbody.1), ih hbody.2, List.cons_append]

theorem lineCommentRest_of_not_mem {body : List Char} (hbody : '\n' ∉ body) :
    lineCommentRest body = body := by
  induction body with
  | nil => rfl
  | cons c body ih =>
      rw [List.mem_cons, not_or] at hbody
      rw [lineCommentRest, if_neg (Ne.symm hbody.1), ih hbody.2]

theorem closes_iff {c : Char} {cs : List Char} :
    (c = '*' ∧ cs.head? = some '/') ↔ ['*', '/'] <+: c :: cs := by
  cases cs with
  | nil => simp
  | cons d cs => simp [eq_comm]

theorem blockCommentRest_of_not_infix {body : List Char} (hbody : ¬ ['*', '/'] <:+: body ++ ['*'])
    (rest : List Char) :
    blockCommentRest (body ++ '*' :: '/' :: rest) = some (body ++ ['*', '/']) := by
  induction body with
  | nil => simp [blockCommentRest]
  | cons c body ih =>
      rw [List.cons_append, List.infix_cons_iff, not_or] at hbody
      have hopen : ¬ (c = '*' ∧ (body ++ '*' :: '/' :: rest).head? = some '/') := by
        rw [closes_iff]
        cases body with
        | nil => simp
        | cons d body => simpa using hbody.1
      rw [List.cons_append, blockCommentRest, if_neg hopen, ih hbody.2, Option.map_some,
        List.cons_append]

theorem blockCommentRest_eq_some {cs text : List Char} (h : blockCommentRest cs = some text) :
    ∃ body rest, text = body ++ ['*', '/'] ∧ cs = text ++ rest ∧
      ¬ ['*', '/'] <:+: body ++ ['*'] := by
  induction cs generalizing text with
  | nil => simp [blockCommentRest] at h
  | cons c cs ih =>
      rw [blockCommentRest] at h
      by_cases hclose : c = '*' ∧ cs.head? = some '/'
      · rw [if_pos hclose, Option.some.injEq] at h
        obtain ⟨rest, hrest⟩ := closes_iff.mp hclose
        exact ⟨[], rest, h.symm, by rw [← h, hrest], by simp [List.infix_cons_iff]⟩
      · rw [if_neg hclose, Option.map_eq_some_iff] at h
        obtain ⟨text, htext, rfl⟩ := h
        obtain ⟨body, rest, rfl, rfl, hbody⟩ := ih htext
        refine ⟨c :: body, rest, rfl, rfl, ?_⟩
        rw [List.cons_append, List.infix_cons_iff, not_or]
        refine ⟨?_, hbody⟩
        rw [closes_iff] at hclose
        cases body with
        | nil => simp
        | cons d body => simpa using hclose

end Comments

section Strings

theorem stringRest_of_quoted {value body : List Char} (h : Quoted value body) (rest : List Char) :
    stringRest (body ++ '"' :: rest) = .ok (value, body ++ ['"']) := by
  induction h with
  | nil => rfl
  | @plain c value text hc h ih =>
      simp only [List.mem_cons, List.not_mem_nil, or_false, not_or] at hc
      rw [List.cons_append, stringRest, ih]
      · rfl
      all_goals grind
  | @escape c v value text hc h ih =>
      have hv : unescape? c = some v := by
        simp only [List.mem_cons, Prod.mk.injEq, List.not_mem_nil, or_false] at hc
        obtain ⟨rfl, rfl⟩ | ⟨rfl, rfl⟩ | ⟨rfl, rfl⟩ | ⟨rfl, rfl⟩ := hc <;> rfl
      simp only [List.cons_append, stringRest, hv, ih]
      rfl

theorem mem_escapes_of_unescape? {c v : Char} (h : unescape? c = some v) :
    (c, v) ∈ [('n', '\n'), ('t', '\t'), ('"', '"'), ('\\', '\\')] := by
  unfold unescape? at h
  split at h <;> simp_all [eq_comm]

theorem quoted_of_stringRest {cs value text : List Char} (h : stringRest cs = .ok (value, text)) :
    ∃ body rest, text = body ++ ['"'] ∧ cs = text ++ rest ∧ Quoted value body := by
  fun_induction stringRest cs generalizing value text with
  | case1 => cases h
  | case2 cs =>
      cases h
      exact ⟨[], cs, rfl, rfl, .nil⟩
  | case3 => cases h
  | case4 => cases h
  | case5 => cases h
  | case6 c cs v hv ih =>
      cases hrest : stringRest cs with
      | error e => rw [hrest] at h; cases h
      | ok r =>
          rw [hrest] at h
          cases h
          obtain ⟨body, rest, htext, rfl, hbody⟩ := ih hrest
          exact ⟨'\\' :: c :: body, rest, by rw [htext]; rfl, rfl,
            .escape (mem_escapes_of_unescape? hv) hbody⟩
  | case7 c cs h1 h2 h3 h4 ih =>
      cases hrest : stringRest cs with
      | error e => rw [hrest] at h; cases h
      | ok r =>
          rw [hrest] at h
          cases h
          obtain ⟨body, rest, htext, rfl, hbody⟩ := ih hrest
          refine ⟨c :: body, rest, by rw [htext]; rfl, rfl, .plain ?_ hbody⟩
          have hc : c ≠ '\\' := by
            intro hc
            cases hcs : r.2 ++ rest with
            | nil => exact h3 hc hcs
            | cons d ds => exact h4 d ds hc hcs
          simp only [List.mem_cons, List.not_mem_nil, or_false, not_or]
          exact ⟨h1, hc, h2⟩

end Strings

section Tiles

def Tile.Fits (t : Tile) (rest : List Char) : Prop :=
  match t.token with
  | none => Filler t.text rest
  | some k => Lexeme k t.text rest

theorem tile_of_isWhite {c : Char} (hc : IsWhite c) (cs : List Char) :
    tile c cs = .ok ⟨none, [c]⟩ := by
  rw [tile.eq_def, if_pos (isBlank_iff.mpr hc)]

theorem tile_of_isDigit {c : Char} (hc : c.isDigit = true) (cs : List Char) :
    tile c cs = numberTile c cs := by
  have hwhite : ¬ IsWhite c := ContinuesWord.not_isWhite (Or.inr (Or.inl hc))
  rw [tile.eq_def, if_neg (mt isBlank_iff.mp hwhite), if_pos hc]

theorem tile_of_beginsWord {c : Char} (hc : BeginsWord c) (cs : List Char) :
    tile c cs = .ok (wordTile c cs) := by
  have hwhite : ¬ IsWhite c := ContinuesWord.not_isWhite (Or.inl hc)
  rw [tile.eq_def, if_neg (mt isBlank_iff.mp hwhite), hc.isDigit, if_neg Bool.false_ne_true,
    if_pos (isNameStart_iff.mpr hc)]

theorem fits_commentTile {cs : List Char} {t : Tile} (h : commentTile cs = .ok t) :
    ∃ rest, '/' :: cs = t.text ++ rest ∧ t.Fits rest := by
  rw [commentTile.eq_def] at h
  split at h
  · next cs =>
      cases h
      by_cases hline : '\n' ∈ cs
      · obtain ⟨body, rest, rfl, hbody⟩ := List.eq_append_cons_of_mem hline
        refine ⟨rest, ?_, ?_⟩
        · simp [lineCommentRest_of_newline hbody]
        · rw [lineCommentRest_of_newline hbody]
          exact Filler.line hbody
      · refine ⟨[], ?_, ?_⟩
        · simp [lineCommentRest_of_not_mem hline]
        · rw [lineCommentRest_of_not_mem hline]
          exact Filler.lastLine hline
  · next cs =>
      split at h
      · next text htext =>
          cases h
          obtain ⟨body, rest, rfl, rfl, hbody⟩ := blockCommentRest_eq_some htext
          exact ⟨rest, rfl, Filler.block hbody⟩
      · cases h
  · cases h

theorem fits_stringTile {cs : List Char} {t : Tile} (h : stringTile cs = .ok t) :
    ∃ rest, '"' :: cs = t.text ++ rest ∧ t.Fits rest := by
  rw [stringTile] at h
  cases hrest : stringRest cs with
  | error e =>
      rw [hrest] at h
      cases h
  | ok r =>
      obtain ⟨value, text⟩ := r
      rw [hrest] at h
      cases h
      obtain ⟨body, rest, rfl, rfl, hbody⟩ := quoted_of_stringRest hrest
      exact ⟨rest, rfl, Lexeme.string hbody⟩

theorem Word.ofNat?_eq_some {n : Nat} {w : Word} : Word.ofNat? n = some w ↔ w.toNat = n := by
  rw [Word.ofNat?]
  constructor
  · intro h
    split_ifs at h with hn
    cases h
    simpa using hn
  · rintro rfl
    rw [if_pos (by simpa using w.isLt)]
    simp

theorem fits_numberTile {c : Char} {cs : List Char} {t : Tile}
    (h : numberTile c cs = .ok t) : ∃ rest, c :: cs = t.text ++ rest ∧ t.Fits rest := by
  simp only [numberTile] at h
  split at h
  · next w hw =>
      cases h
      obtain ⟨n, hn, hw⟩ := Option.bind_eq_some_iff.mp hw
      obtain rfl := Word.ofNat?_eq_some.mp hw
      refine ⟨cs.dropWhile Char.isAlphanum, ?_, ?_⟩
      · simp [List.takeWhile_append_dropWhile]
      · exact Lexeme.number (numeral_of_numeral? hn) (head?_dropWhile _ _)
  · cases h

theorem fits_wordTile {c : Char} (hc : BeginsWord c) (cs : List Char) :
    ∃ rest, c :: cs = (wordTile c cs).text ++ rest ∧ (wordTile c cs).Fits rest := by
  refine ⟨cs.dropWhile isNamePart, ?_, ?_⟩
  · simp [wordTile, List.takeWhile_append_dropWhile]
  · have hword : IsWord (String.ofList (c :: cs.takeWhile isNamePart)).toList := by
      rw [String.toList_ofList]
      exact ⟨c, _, rfl, hc, fun d hd => isNamePart_iff.mp (List.mem_takeWhile_imp hd)⟩
    have hrest (d : Char) (hd : d ∈ (cs.dropWhile isNamePart).head?) :=
      isNamePart_eq_false.mp (head?_dropWhile isNamePart cs d hd)
    rcases hword.ofWord_cases with ⟨k, hk, htoken⟩ | ⟨hx, htoken⟩
    · have htext : c :: cs.takeWhile isNamePart = k.word.toList := by
        rw [← hk, String.toList_ofList]
      simp only [Tile.Fits, wordTile, htoken]
      rw [htext]
      exact Lexeme.keyword k hrest
    · have hfits := Lexeme.identifier hx hrest
      rw [String.toList_ofList] at hfits
      simpa only [Tile.Fits, wordTile, htoken] using hfits

theorem fits_pairTile {m : Mark} {first second : Char} (hm : m.symbol.toList = [first, second])
    {cs : List Char} {t : Tile} (h : pairTile m first second cs = .ok t) :
    ∃ rest, first :: cs = t.text ++ rest ∧ t.Fits rest := by
  rw [pairTile] at h
  split_ifs at h with hsecond
  cases h
  obtain ⟨rest, rfl⟩ : ∃ rest, cs = second :: rest := by
    cases cs with
    | nil => cases hsecond
    | cons c rest => exact ⟨rest, by simpa using hsecond⟩
  refine ⟨rest, rfl, ?_⟩
  rw [Tile.Fits, ← hm]
  exact Lexeme.mark m

/-- The tile at the head of a text fits what stands behind it. -/
theorem fits_tile {c : Char} {cs : List Char} {t : Tile} (h : tile c cs = .ok t) :
    ∃ rest, c :: cs = t.text ++ rest ∧ t.Fits rest := by
  by_cases hwhite : IsWhite c
  · rw [tile_of_isWhite hwhite] at h
    cases h
    exact ⟨cs, rfl, Filler.blank hwhite⟩
  by_cases hdigit : c.isDigit = true
  · exact fits_numberTile (tile_of_isDigit hdigit cs ▸ h)
  by_cases hstart : BeginsWord c
  · rw [tile_of_beginsWord hstart] at h
    cases h
    exact fits_wordTile hstart cs
  rw [tile.eq_def, if_neg (mt isBlank_iff.mp hwhite), if_neg hdigit,
    if_neg (mt isNameStart_iff.mp hstart)] at h
  split at h
  · exact fits_commentTile h
  · exact fits_stringTile h
  · cases h; exact ⟨cs, rfl, Lexeme.mark .leftBrace⟩
  · cases h; exact ⟨cs, rfl, Lexeme.mark .rightBrace⟩
  · cases h; exact ⟨cs, rfl, Lexeme.mark .leftParen⟩
  · cases h; exact ⟨cs, rfl, Lexeme.mark .rightParen⟩
  · cases h; exact ⟨cs, rfl, Lexeme.mark .comma⟩
  · exact fits_pairTile (m := .assign) rfl h
  · exact fits_pairTile (m := .arrow) rfl h
  · cases h

theorem tile_of_filler {text rest : List Char} (h : Filler text rest) :
    ∃ c cs, text = c :: cs ∧ tile c (cs ++ rest) = .ok ⟨none, text⟩ := by
  cases h with
  | @blank c _ hc => exact ⟨c, [], rfl, tile_of_isWhite hc rest⟩
  | @line body _ hbody =>
      have hcomment : commentTile ('/' :: (body ++ ['\n'] ++ rest)) =
          .ok ⟨none, '/' :: '/' :: (body ++ ['\n'])⟩ := by
        simp [commentTile, lineCommentRest_of_newline hbody]
      exact ⟨'/', '/' :: (body ++ ['\n']), rfl, hcomment⟩
  | @lastLine body hbody =>
      have hcomment : commentTile ('/' :: (body ++ [])) = .ok ⟨none, '/' :: '/' :: body⟩ := by
        simp [commentTile, lineCommentRest_of_not_mem hbody]
      exact ⟨'/', '/' :: body, rfl, hcomment⟩
  | @block body _ hbody =>
      have hcomment : commentTile ('*' :: (body ++ ['*', '/'] ++ rest)) =
          .ok ⟨none, '/' :: '*' :: (body ++ ['*', '/'])⟩ := by
        simp [commentTile, blockCommentRest_of_not_infix hbody]
      exact ⟨'/', '*' :: (body ++ ['*', '/']), rfl, hcomment⟩

theorem tile_of_word {c : Char} {cs rest : List Char} (hc : BeginsWord c)
    (hcs : ∀ d ∈ cs, ContinuesWord d) (hrest : ∀ d ∈ rest.head?, ¬ ContinuesWord d) :
    tile c (cs ++ rest) = .ok ⟨some (Token.ofWord (String.ofList (c :: cs))), c :: cs⟩ := by
  rw [tile_of_beginsWord hc, wordTile, takeWhile_append_of_head?
    (fun d hd => isNamePart_iff.mpr (hcs d hd)) (fun d hd => isNamePart_eq_false.mpr (hrest d hd))]

theorem tile_of_lexeme {t : Token} {text rest : List Char} (h : Lexeme t text rest) :
    ∃ c cs, text = c :: cs ∧ tile c (cs ++ rest) = .ok ⟨some t, text⟩ := by
  cases h with
  | mark m => cases m <;> exact ⟨_, _, rfl, rfl⟩
  | @string value text _ h =>
      have hstring : stringTile (text ++ ['"'] ++ rest) =
          .ok ⟨some (.string (String.ofList value)), '"' :: (text ++ ['"'])⟩ := by
        rw [stringTile, List.append_assoc, List.singleton_append, stringRest_of_quoted h]
        rfl
      exact ⟨'"', text ++ ['"'], rfl, hstring⟩
  | keyword k hrest =>
      obtain ⟨c, cs, hword, hc, hcs⟩ := k.isWord
      refine ⟨c, cs, hword, ?_⟩
      rw [tile_of_word hc hcs hrest, ← hword, String.ofList_toList, Token.ofWord_word]
  | @identifier x _ hx hrest =>
      obtain ⟨c, cs, hword, hc, hcs⟩ := hx.isWord
      refine ⟨c, cs, hword, ?_⟩
      rw [tile_of_word hc hcs hrest, ← hword, String.ofList_toList,
        Token.ofWord_of_isIdentifier hx]
  | @number _ _ n h hrest =>
      obtain ⟨c, cs, rfl, hc, hcs⟩ := h.isDigit
      refine ⟨c, cs, rfl, ?_⟩
      simp only [tile_of_isDigit hc, numberTile, takeWhile_append_of_head? hcs hrest,
        numeral?_of_numeral h, Option.bind_some, Word.ofNat?_eq_some.mpr rfl]

/-- What fits at the head of a text is the tile there. -/
theorem Tile.Fits.tile {t : Tile} {rest : List Char} (h : t.Fits rest) :
    ∃ c cs, t.text = c :: cs ∧ YulPruner.tile c (cs ++ rest) = .ok t := by
  obtain ⟨token, text⟩ := t
  cases token with
  | none => exact tile_of_filler h
  | some t => exact tile_of_lexeme h

end Tiles

end YulPruner
