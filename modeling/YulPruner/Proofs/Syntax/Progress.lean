import YulPruner.Proofs.Syntax.Completeness
import YulPruner.Proofs.Syntax.Course

namespace YulPruner

namespace TokenStream

/-- The stream behind `n` tokens. -/
def drop (s : TokenStream) (n : Nat) : TokenStream := { s with tokens := s.tokens.drop n }

def ending {α : Type} (s : TokenStream) (n : Nat) :
    Except Fault α → EStateM.Result ParseError TokenStream α
  | .ok a => .ok a (s.drop n)
  | .error fault => .error ⟨(s.drop n).position, fault⟩ (s.drop n)

variable {α : Type} (s : TokenStream) (n k : Nat)

theorem kinds_drop : (s.drop n).kinds = s.kinds.drop n := List.map_drop

theorem drop_drop : (s.drop n).drop k = s.drop (n + k) := by
  rw [drop, drop, drop, List.drop_drop]

theorem ending_drop (v : Except Fault α) : (s.drop n).ending k v = s.ending (n + k) v := by
  cases v <;> rw [ending, ending, drop_drop]

theorem kinds_drop_length {s : TokenStream} {ts us : List Token} (h : s.kinds = ts ++ us) :
    (s.drop ts.length).kinds = us := by
  rw [kinds_drop, h, List.drop_left]

end TokenStream

namespace Parser

variable {α β : Type}

theorem Gives.lt {x : Parser α} {D : α → List Token → Prop} (h : Gives x D)
    (hne : ∀ a ts, D a ts → ts ≠ []) {s s' : TokenStream} {a : α} (hx : x s = .ok a s') :
    s'.kinds.length < s.kinds.length := by
  obtain ⟨ts, hs, ha⟩ := h s a s' hx
  rw [hs, List.length_append]
  exact Nat.lt_add_of_pos_left (List.length_pos_iff.mpr (hne a ts ha))

/-- From `s`, the parser goes as the course does. -/
def Along (x : Parser α) (c : Course α) (s : TokenStream) : Prop :=
  ∃ taken rest v, s.kinds = taken ++ rest ∧ c.Goes taken rest v ∧ x s = s.ending taken.length v

namespace Along

variable {s : TokenStream}

protected theorem pure (a : α) : Along (pure a) (pure a) s := ⟨[], s.kinds, .ok a, rfl, .done, rfl⟩

protected theorem fail (fault : Fault) : Along (fail fault : Parser α) (.fail fault) s :=
  ⟨[], s.kinds, .error fault, rfl, .fail, rfl⟩

theorem read (part : Part) {x : Parser part.Answer} (h : Along x part.course s) :
    Along x (Course.read part) s := by
  obtain ⟨taken, rest, v, hs, hgoes, hx⟩ := h
  exact ⟨taken, rest, v, hs, hgoes.read, hx⟩

theorem bind {x : Parser α} {c : Course α} (h : Along x c s) {l : α → Parser β} {k : α → Course β}
    (hk : ∀ a s', x s = .ok a s' → s'.kinds.length ≤ s.kinds.length → Along (l a) (k a) s') :
    Along (x >>= l) (c >>= k) s := by
  obtain ⟨taken, rest, v, hs, hgoes, hx⟩ := h
  have hrest := TokenStream.kinds_drop_length hs
  cases v with
  | error fault => exact ⟨taken, rest, .error fault, hs, hgoes.bind_error k, bind_of_error hx l⟩
  | ok a =>
      obtain ⟨taken', rest', v', hs', hgoes', hl⟩ := hk a _ hx (by simp [hrest, hs])
      obtain rfl : rest = taken' ++ rest' := hrest.symm.trans hs'
      refine ⟨taken ++ taken', rest', v', by rw [hs, List.append_assoc], hgoes.bind_ok hgoes', ?_⟩
      rw [bind_of_ok hx, hl, TokenStream.ending_drop, List.length_append]

theorem peek {l : Option Token → Parser α} {k : Option Token → Course α}
    (h : Along (l s.kinds.head?) (k s.kinds.head?) s) :
    Along (peek? >>= l) (Course.next? >>= k) s := by
  obtain ⟨taken, rest, v, hs, hgoes, hl⟩ := h
  rw [hs] at hgoes
  exact ⟨taken, rest, v, hs, .peek hgoes, by rw [peek?_bind, hl]⟩

/-- The next token must be taken afterwards. -/
theorem peekSecond {l : Option Token → Parser α} {k : Option Token → Course α}
    (h : Along (l s.kinds[1]?) (k s.kinds[1]?) s ∧ ∀ v, ¬ (k s.kinds[1]?).Goes [] s.kinds v) :
    Along (peekSecond? >>= l) (Course.second? >>= k) s := by
  obtain ⟨⟨taken, rest, v, hs, hgoes, hl⟩, htakes⟩ := h
  cases taken with
  | nil => exact absurd (hs ▸ hgoes) (htakes v)
  | cons t taken =>
      have hsecond : s.kinds[1]? = (taken ++ rest).head? := by
        rw [hs, List.cons_append, List.getElem?_cons_succ, List.head?_eq_getElem?]
      rw [hsecond] at hgoes
      exact ⟨t :: taken, rest, v, hs, .peekSecond hgoes, by rw [peekSecond?_bind, hl]⟩

theorem advance {l : Unit → Parser α} {k : Unit → Course α} {t : Token}
    (hhead : s.kinds.head? = some t)
    (hl : ∀ s', s'.kinds.length < s.kinds.length → Along (l ()) (k ()) s') :
    Along (advance >>= l) (Course.skip >>= k) s := by
  obtain ⟨us, hs⟩ := List.head?_eq_some_iff.mp hhead
  have hrest : (s.drop 1).kinds = us := by
    rw [TokenStream.kinds_drop, hs, List.drop_one, List.tail_cons]
  obtain ⟨taken, rest, v, hs', hgoes, hx⟩ := hl (s.drop 1) (by simp [hrest, hs])
  refine ⟨t :: taken, rest, v, by rw [hs, ← hrest, hs', List.cons_append], .advance hgoes, ?_⟩
  have hadvance : (Parser.advance >>= l) s = l () (s.drop 1) := by
    rw [TokenStream.drop, List.drop_one]
    rfl
  rw [hadvance, hx, TokenStream.ending_drop, List.length_cons, Nat.add_comm]

theorem bound {l : Nat → Parser α} {c : Course α} (h : Along (l (s.kinds.length + 1)) c s) :
    Along (bound >>= l) c s := by
  obtain ⟨taken, rest, v, hs, hgoes, hl⟩ := h
  exact ⟨taken, rest, v, hs, hgoes, by rw [bound_bind, hl]⟩

theorem map {x : Parser α} {c : Course α} (h : Along x c s) (f : α → β) :
    Along (do return f (← x)) (do return f (← c)) s :=
  h.bind fun a _ _ _ => .pure (f a)

theorem unexpected (what : Expectation) :
    Along (unexpected what : Parser α) (Course.unexpected what) s :=
  .peek (.fail _)

theorem accept (t : Token) : Along (accept t) (Course.accept t) s := by
  refine .peek ?_
  by_cases hhead : s.kinds.head? = some t
  · rw [if_pos hhead, if_pos hhead]
    exact .advance hhead fun _ _ => .pure true
  · rw [if_neg hhead, if_neg hhead]
    exact .pure false

theorem accept_bind (t : Token) {l : Bool → Parser α} {k : Bool → Course α}
    (htrue : ∀ s', s'.kinds.length < s.kinds.length → Along (l true) (k true) s')
    (hfalse : ∀ s', s'.kinds.length ≤ s.kinds.length → Along (l false) (k false) s') :
    Along (Parser.accept t >>= l) (Course.accept t >>= k) s := by
  refine (accept t).bind fun b s' hb hle => ?_
  cases b with
  | true =>
      obtain ⟨ts, hs, rfl⟩ := gives_accept t s true s' hb
      exact htrue s' (by simp [hs])
  | false => exact hfalse s' hle

theorem expect_bind (m : Mark) {l : Unit → Parser α} {k : Unit → Course α}
    (h : ∀ s', s'.kinds.length < s.kinds.length → Along (l ()) (k ()) s') :
    Along (expect m >>= l) (Course.expect m >>= k) s := by
  have hexpect : Along (expect m) (Course.expect m) s :=
    .accept_bind _ (fun _ _ => .pure ()) fun _ _ => .unexpected _
  refine hexpect.bind fun _ s' hm _ => h s' ?_
  obtain ⟨ts, hs, rfl⟩ := gives_expect m s () s' hm
  simp [hs]

theorem identifier : Along identifier Course.identifier s := by
  refine .peek ?_
  cases hhead : s.kinds.head? with
  | none => exact .unexpected _
  | some t =>
      cases t with
      | identifier x => exact .advance hhead fun _ _ => .pure x
      | _ => exact .unexpected _

theorem literal : Along literal Course.literal s := by
  refine .peek ?_
  cases hhead : s.kinds.head? with
  | none => exact .unexpected _
  | some t =>
      cases t with
      | number n => exact .advance hhead fun _ _ => .pure _
      | string v => exact .advance hhead fun _ _ => .pure _
      | keyword k =>
          cases k with
          | true => exact .advance hhead fun _ _ => .pure _
          | false => exact .advance hhead fun _ _ => .pure _
          | _ => exact .unexpected _
      | _ => exact .unexpected _

end Along

section Items

variable {item : Parser α} {course : Course α} {more : Course (List α)} {n : Nat} {s : TokenStream}
  (hitem : ∀ s, s.kinds.length < n → Along item course s)
  (hmore : ∀ x s, Along x (Course.moreItems course more) s → Along x more s)

include hitem hmore

theorem along_moreItems (hn : s.kinds.length < n) (m : Nat) (hm : s.kinds.length < m) :
    Along (moreItems item m) more s := by
  induction m generalizing s with
  | zero => exact absurd hm (Nat.not_lt_zero _)
  | succ m ih =>
      refine hmore _ _ (.accept_bind _ (fun s₁ h₁ => ?_) fun _ _ => .pure [])
      refine (hitem s₁ (by omega)).bind fun a s₂ _ h₂ => ?_
      exact (ih (by omega) (by omega)).map (a :: ·)

theorem along_items (hn : s.kinds.length < n) : Along (items item) (Course.items course more) s := by
  refine (hitem s hn).bind fun a s₁ _ h₁ => .bound ?_
  exact (along_moreItems hitem hmore (by omega) _ (Nat.lt_succ_self _)).map (a :: ·)

theorem along_itemsInParens (hn : s.kinds.length < n) :
    Along (itemsInParens item) (Course.itemsInParens course more) s := by
  refine .peek ?_
  by_cases hhead : s.kinds.head? = some (.mark .rightParen)
  · rw [if_pos hhead, if_pos hhead]
    exact .pure []
  · rw [if_neg hhead, if_neg hhead]
    exact along_items hitem hmore hn

end Items

theorem along_names (s : TokenStream) : Along names Course.names s :=
  along_items (fun _ _ => .identifier) (fun _ _ => .read .moreNames) (Nat.lt_succ_self _)

theorem along_expressionWithin (n : Nat) {s : TokenStream} (hn : s.kinds.length < n) :
    Along (expressionWithin n) (Course.read .expression) s := by
  induction n generalizing s with
  | zero => exact absurd hn (Nat.not_lt_zero _)
  | succ n ih =>
      -- Arguments stand behind a name and a parenthesis, so there are fewer tokens left for them.
      have hliteral : Along (do return Expr.literal (← literal))
          (do return Expr.literal (← Course.literal)) s := Along.literal.map _
      refine .read .expression (.peek ?_)
      cases hhead : s.kinds.head? with
      | none => exact hliteral
      | some t =>
          cases t with
          | identifier x =>
              refine .advance hhead fun s₁ h₁ => .accept_bind _ (fun s₂ h₂ => ?_) fun _ _ => .pure _
              have harguments := along_itemsInParens (fun _ => ih) (fun _ _ => .read .moreArguments)
                (show s₂.kinds.length < n by omega)
              exact harguments.bind fun _ _ _ _ => .expect_bind _ fun _ _ => .pure _
          | _ => exact hliteral

theorem along_expression (s : TokenStream) : Along expression (Course.read .expression) s :=
  .bound (along_expressionWithin _ (Nat.lt_succ_self _))

theorem along_assignment (s : TokenStream) : Along (do
    let targets ← names
    expect .assign
    return Stmt.assignment targets (← expression)) Course.assignment s :=
  (along_names s).bind fun _ _ _ _ => .expect_bind _ fun s' _ => (along_expression s').map _

theorem along_callStatement (s : TokenStream) : Along (do
    match ← expression with
    | .call f arguments => return Stmt.expression (.call f arguments)
    | _ => fail .bareExpression) Course.callStatement s := by
  refine (along_expression s).bind fun e _ _ _ => ?_
  cases e with
  | call f arguments => exact .pure _
  | _ => exact .fail _

section Name

variable {rest : List Token} {x : Name} (hhead : rest.head? = some (.identifier x))
  (v : Except Fault Stmt)

include hhead

theorem not_goes_assignment : ¬ Course.assignment.Goes [] rest v := by
  intro h
  cases h with
  | peek h =>
      rw [List.nil_append, hhead] at h
      cases h

theorem not_goes_callStatement : ¬ Course.callStatement.Goes [] rest v := by
  intro h
  obtain ⟨ts, us, w, htaken, h⟩ := h.of_ask
  obtain ⟨rfl, rfl⟩ := List.nil_eq_append_iff.mp htaken
  cases h with
  | peek h =>
      rw [List.nil_append, List.nil_append, hhead] at h
      cases h

end Name

theorem along_simpleStatement {s : TokenStream} {x : Name}
    (hhead : s.kinds.head? = some (.identifier x)) :
    Along simpleStatement Course.simpleStatement s := by
  have hassignment := And.intro (along_assignment s) (not_goes_assignment hhead)
  have hcall := And.intro (along_callStatement s) (not_goes_callStatement hhead)
  refine .peekSecond ?_
  cases s.kinds[1]? with
  | none => exact hcall
  | some t =>
      cases t with
      | mark m =>
          cases m with
          | assign | comma => exact hassignment
          | _ => exact hcall
      | _ => exact hcall

theorem along_declaration (s : TokenStream) : Along declaration Course.declaration s := by
  refine (along_names s).bind fun names _ _ _ => .accept_bind _ (fun s' _ => ?_) fun _ _ => .pure _
  exact (along_expression s').map _

section Nested

variable {block : Parser Block} {n : Nat} {s : TokenStream}
  (hblock : ∀ s, s.kinds.length < n → Along block Course.block s)

include hblock

theorem along_function (hn : s.kinds.length < n) : Along (function block) Course.function s := by
  refine Along.identifier.bind fun name s₁ _ h₁ => .expect_bind _ fun s₂ h₂ => ?_
  have hparameters := along_itemsInParens (fun _ _ => .identifier) (fun _ _ => .read .moreNames)
    (Nat.lt_succ_self s₂.kinds.length)
  refine hparameters.bind fun parameters s₃ _ h₃ => .expect_bind _ fun s₄ h₄ => ?_
  have hrest (returns : List Name) (s' : TokenStream) (h : s'.kinds.length < n) : Along (do
      let body ← block
      return Stmt.function ⟨name, parameters, returns, body⟩) (do
      let body ← Course.block
      return Stmt.function ⟨name, parameters, returns, body⟩) s' := (hblock s' h).map _
  refine .accept_bind _ (fun s₅ h₅ => ?_) fun s₅ h₅ => hrest [] s₅ (by omega)
  exact (along_names s₅).bind fun returns s₆ _ h₆ => hrest returns s₆ (by omega)

theorem along_cases (hn : s.kinds.length < n) (m : Nat) (hm : s.kinds.length < m) :
    Along (cases block m) (Course.read .cases) s := by
  induction m generalizing s with
  | zero => exact absurd hm (Nat.not_lt_zero _)
  | succ m ih =>
      refine .read .cases (.accept_bind _ (fun s₁ h₁ => ?_) fun s₁ h₁ => ?_)
      · refine Along.literal.bind fun value s₂ _ h₂ => ?_
        refine (hblock s₂ (by omega)).bind fun body s₃ _ h₃ => ?_
        have hrest : Along (cases block m) (Course.read .cases) s₃ := ih (by omega) (by omega)
        exact hrest.map (⟨some value, body⟩ :: ·)
      · refine .accept_bind _ (fun s₂ h₂ => ?_) fun _ _ => .pure []
        have hbody : Along block Course.block s₂ := hblock s₂ (by omega)
        exact hbody.map fun body => [(⟨none, body⟩ : Case)]

theorem along_switch (hn : s.kinds.length < n) : Along (switch block) Course.switch s := by
  refine (along_expression s).bind fun scrutinee s₁ _ h₁ => .bound ?_
  refine (along_cases hblock (by omega) _ (Nat.lt_succ_self _)).bind fun arms s₂ _ _ => ?_
  cases arms with
  | nil => exact (Along.fail .emptySwitch).bind fun _ _ _ _ => .pure _
  | cons => exact .pure _

theorem along_loop (hn : s.kinds.length < n) : Along (loop block) Course.loop s := by
  refine (hblock s hn).bind fun pre s₁ _ h₁ => (along_expression s₁).bind fun condition s₂ _ h₂ => ?_
  refine (hblock s₂ (by omega)).bind fun post s₃ _ h₃ => ?_
  exact (hblock s₃ (by omega)).map _

theorem along_statement (hn : s.kinds.length < n) : Along (statement block) Course.statement s := by
  refine .peek ?_
  cases hhead : s.kinds.head? with
  | none => exact .unexpected _
  | some t =>
      cases t with
      | identifier x => exact along_simpleStatement hhead
      | mark m =>
          cases m with
          | leftBrace => exact (hblock s hn).map _
          | _ => exact .unexpected _
      | keyword k =>
          cases k with
          | function => exact .advance hhead fun s₁ h₁ => along_function hblock (by omega)
          | declare => exact .advance hhead fun s₁ _ => along_declaration s₁
          | conditional =>
              refine .advance hhead fun s₁ h₁ => (along_expression s₁).bind fun condition s₂ _ h₂ => ?_
              exact (hblock s₂ (by omega)).map _
          | switch => exact .advance hhead fun s₁ h₁ => along_switch hblock (by omega)
          | loop => exact .advance hhead fun s₁ h₁ => along_loop hblock (by omega)
          | breakLoop | continueLoop | leave => exact .advance hhead fun _ _ => .pure _
          | _ => exact .unexpected _
      | _ => exact .unexpected _

end Nested

theorem along_statementsWithin (n : Nat) {s : TokenStream} (hn : s.kinds.length < n) :
    Along (statementsWithin n) (Course.read .statements) s := by
  induction n generalizing s with
  | zero => exact absurd hn (Nat.not_lt_zero _)
  | succ n ih =>
      -- The brace of a block in a statement, and each statement, leave fewer tokens than there were.
      have hblock (s : TokenStream) (h : s.kinds.length < n + 1) : Along (do
          expect .leftBrace
          statementsWithin n) Course.block s := .expect_bind _ fun s₁ h₁ => ih (by omega)
      have hmore : Along (do
          let s ← statement do
            expect .leftBrace
            statementsWithin n
          return s :: (← statementsWithin n)) (do
          let s ← Course.statement
          return s :: (← Course.read .statements)) s := by
        refine (along_statement hblock hn).bind fun stmt s₁ hstmt _ => ?_
        have hlt : s₁.kinds.length < s.kinds.length := by
          refine (gives_statement (gives_blockWithin n)).lt ?_ hstmt
          rintro _ _ h rfl
          obtain ⟨_, _, hts, _⟩ := head_of_statement h
          cases hts
        have hrest : Along (statementsWithin n) (Course.read .statements) s₁ := ih (by omega)
        exact hrest.map (stmt :: ·)
      refine .read .statements (.peek ?_)
      cases hhead : s.kinds.head? with
      | none => exact .fail _
      | some t =>
          cases t with
          | mark m =>
              cases m with
              | rightBrace => exact .advance hhead fun _ _ => .pure []
              | _ => exact hmore
          | _ => exact hmore

theorem along_block (s : TokenStream) : Along block Course.block s :=
  .expect_bind _ fun _ _ => .bound (along_statementsWithin _ (Nat.lt_succ_self _))

theorem along_program (s : TokenStream) : Along program Course.program s := by
  have hend (s : TokenStream) : Along expectEnd Course.expectEnd s := by
    refine .peek ?_
    cases s.kinds.head? with
    | none => exact .pure ()
    | some t => exact .unexpected _
  exact (along_block s).bind fun root s₁ _ _ => (hend s₁).map fun _ => Program.mk root

end Parser

namespace Fragment

variable {kind : FragmentKind} {s : TokenStream} {i j : Nat} {v : Except Fault Fragment}

theorem along (kind : FragmentKind) (s : TokenStream) :
    Parser.Along (parser kind) (course kind) s := by
  cases kind with
  | expression => exact (Parser.along_expression s).map _
  | block => exact (Parser.along_block s).map _

theorem gives (kind : FragmentKind) : Parser.Gives (parser kind) fun _ ts => ts ≠ [] := by
  cases kind with
  | expression =>
      refine Parser.gives_expression.bind fun e ts he => .pure ?_
      obtain ⟨t, us, rfl, _⟩ := Parser.head_of_expression e ts he
      simp
  | block =>
      refine Parser.gives_block.bind fun body ts hbody => .pure ?_
      obtain ⟨us, rfl⟩ := Parser.head_of_block hbody
      simp

/-- What is known of a reading in `s` that finds `i` tokens taken and leaves `j` of them taken. At the
end of the text that is all of the tokens. -/
structure Reading (kind : FragmentKind) (s : TokenStream) (i j : Nat) (v : Except Fault Fragment) :
    Prop where
  run_eq : (parser kind).run (s.drop i) = s.ending j v
  goes : (course kind).Goes ((s.kinds.drop i).take (j - i)) (s.kinds.drop j) v
  unique {taken rest : List Token} {w : Except Fault Fragment} (hs : s.kinds.drop i = taken ++ rest)
    (h : (course kind).Goes taken rest w) : taken.length = j - i ∧ w = v
  forward : i ≤ j
  within : j ≤ s.tokens.length
  moves {fragment : Fragment} : v = .ok fragment → i < j
  stays : i = s.tokens.length → j = i ∧ ∃ fault, v = .error fault

theorem exists_reading (kind : FragmentKind) {s : TokenStream} {i : Nat} (hi : i ≤ s.tokens.length) :
    ∃ j v, Reading kind s i j v := by
  obtain ⟨taken, rest, v, hs, hgoes, hrun⟩ := along kind (s.drop i)
  rw [TokenStream.ending_drop] at hrun
  rw [TokenStream.kinds_drop] at hs
  have hlength : s.tokens.length - i = taken.length + rest.length := by
    have hkinds := congrArg List.length hs
    simpa [TokenStream.kinds] using hkinds
  have hrest : s.kinds.drop (i + taken.length) = rest := by
    rw [← List.drop_drop, hs, List.drop_left]
  have hmoves {fragment : Fragment} (hv : v = .ok fragment) : i < i + taken.length := by
    subst hv
    have hlt := (gives kind).lt (fun _ _ => id) hrun
    rw [TokenStream.kinds_drop, TokenStream.kinds_drop, hs, hrest, List.length_append] at hlt
    omega
  refine ⟨i + taken.length, v, hrun, ?_, ?_, Nat.le_add_right _ _, by omega, hmoves, fun hend => ?_⟩
  · rwa [Nat.add_sub_cancel_left, hs, List.take_left, hrest]
  · intro taken' rest' w hs' h
    obtain ⟨rfl, rfl⟩ := h.unique hgoes (hs'.symm.trans hs)
    exact ⟨(Nat.add_sub_cancel_left _ _).symm, rfl⟩
  · have hnothing : taken.length = 0 := by omega
    refine ⟨by omega, ?_⟩
    cases v with
    | error fault => exact ⟨fault, rfl⟩
    | ok fragment => exact absurd (hmoves rfl) (by omega)

end Fragment

theorem readFragments_cons (kind : FragmentKind) (kinds : List FragmentKind) {s : TokenStream}
    {i j : Nat} {v : Except Fault Fragment} (h : (Fragment.parser kind).run (s.drop i) = s.ending j v) :
    readFragments (kind :: kinds) (s.drop i) =
      (v.mapError (⟨(s.drop j).position, ·⟩) :: (readFragments kinds (s.drop j)).1,
        (readFragments kinds (s.drop j)).2) := by
  cases v <;> rw [readFragments, h] <;> rfl

theorem readFragments_drop (kinds : List FragmentKind) {s : TokenStream} {i : Nat}
    (hi : i ≤ s.tokens.length) :
    ∃ (cursor : Nat → Nat) (verdict : Nat → Except Fault Fragment), cursor 0 = i ∧
      readFragments kinds (s.drop i) = ((List.range kinds.length).map fun n =>
        (verdict n).mapError (⟨(s.drop (cursor (n + 1))).position, ·⟩),
        s.drop (cursor kinds.length)) ∧
      ∀ n kind, kinds[n]? = some kind →
        Fragment.Reading kind s (cursor n) (cursor (n + 1)) (verdict n) := by
  induction kinds generalizing i with
  | nil => exact ⟨fun _ => i, fun _ => .error .unterminatedBlock, rfl, rfl, fun _ _ => nofun⟩
  | cons kind kinds ih =>
      obtain ⟨j, v, hreading⟩ := Fragment.exists_reading kind hi
      obtain ⟨cursor, verdict, rfl, hrest, hreadings⟩ := ih hreading.within
      refine ⟨fun n => n.casesOn i cursor, fun n => n.casesOn v verdict, rfl, ?_, ?_⟩
      · rw [readFragments_cons kind kinds hreading.run_eq, hrest, List.length_cons,
          List.range_succ_eq_map, List.map_cons, List.map_map]
        rfl
      · intro n kind' hn
        cases n with
        | zero =>
            cases hn
            exact hreading
        | succ n => exact hreadings n kind' hn

/-- Each of any number of readings ends, also behind one that failed. None of them goes back or beyond
the end of the text. One that succeeds takes a token at least, and one that begins at the end fails and
stays there. -/
theorem readFragments_progress (kinds : List FragmentKind) (s : TokenStream) :
    ∃ (cursor : Nat → Nat) (verdict : Nat → Except Fault Fragment), cursor 0 = 0 ∧
      readFragments kinds s = ((List.range kinds.length).map fun n =>
        (verdict n).mapError (⟨(s.drop (cursor (n + 1))).position, ·⟩),
        s.drop (cursor kinds.length)) ∧
      ∀ n kind, kinds[n]? = some kind →
        Fragment.Reading kind s (cursor n) (cursor (n + 1)) (verdict n) :=
  readFragments_drop kinds (Nat.zero_le _)

end YulPruner
