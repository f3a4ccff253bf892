import YulPruner.Proofs.Syntax.Completeness
import YulPruner.Proofs.Token.Word

namespace YulPruner

namespace Parser

variable {α β : Type}

/-- Whatever tokens the parser has taken when it fails, `P` holds of them. -/
def Fails (x : Parser α) (P : List Token → Prop) : Prop :=
  ∀ s e s', x s = .error e s' → ∃ ts, s.kinds = ts ++ s'.kinds ∧ P ts

def FailsAt (t : Token) (x : Parser α) (P : List Token → Prop) : Prop :=
  ∀ s e s', s.kinds.head? = some t → x s = .error e s' → ∃ ts, s.kinds = ts ++ s'.kinds ∧ P ts

theorem bind_eq_error {x : Parser α} {k : α → Parser β} {s u : TokenStream} {e : ParseError}
    (h : (x >>= k) s = .error e u) :
    x s = .error e u ∨ ∃ a t, x s = .ok a t ∧ k a t = .error e u := by
  cases hx : x s with
  | ok a t =>
      rw [bind_of_ok hx] at h
      exact .inr ⟨a, t, rfl, h⟩
  | error e' t =>
      rw [bind_of_error hx] at h
      cases h
      exact .inl rfl

namespace Fails

variable {x : Parser α} {P Q : List Token → Prop}

theorem failsAt (h : Fails x P) {t : Token} : FailsAt t x P := fun s e s' _ hx => h s e s' hx

theorem mono (h : Fails x Q) (hQ : ∀ ts, Q ts → P ts) : Fails x P := by
  intro s e s' hx
  obtain ⟨ts, hs, hts⟩ := h s e s' hx
  exact ⟨ts, hs, hQ ts hts⟩

protected theorem pure (a : α) : Fails (pure a) P := fun _ _ _ hx => nomatch hx

protected theorem fail (fault : Fault) (h : P []) : Fails (fail fault : Parser α) P := by
  intro s e s' hx
  cases hx
  exact ⟨[], rfl, h⟩

theorem peek {k : Option Token → Parser α} (hnone : Fails (k none) P)
    (hsome : ∀ t, FailsAt t (k (some t)) P) : Fails (peek? >>= k) P := by
  intro s e s' h
  rw [peek?_bind] at h
  cases hhead : s.kinds.head? with
  | none =>
      rw [hhead] at h
      exact hnone s e s' h
  | some t =>
      rw [hhead] at h
      exact hsome t s e s' hhead h

theorem peekSecond {k : Option Token → Parser α} (h : ∀ o, Fails (k o) P) :
    Fails (peekSecond? >>= k) P := by
  intro s e s' hx
  rw [peekSecond?_bind] at hx
  exact h _ s e s' hx

theorem bound {k : Nat → Parser α} (h : ∀ n, Fails (k n) P) : Fails (bound >>= k) P := by
  intro s e s' hx
  rw [bound_bind] at hx
  exact h _ s e s' hx

theorem bind {k : α → Parser β} {D : α → List Token → Prop} (hfails : Fails x P)
    (hgives : Gives x D) (hk : ∀ a ts, D a ts → Fails (k a) fun us => P (ts ++ us)) :
    Fails (x >>= k) P := by
  intro s e u h
  rcases bind_eq_error h with hx | ⟨a, t, ha, hrest⟩
  · exact hfails s e u hx
  · obtain ⟨ts, hs, hD⟩ := hgives s a t ha
    obtain ⟨us, ht, hP⟩ := hk a ts hD t e u hrest
    exact ⟨ts ++ us, by rw [hs, ht, List.append_assoc], hP⟩

theorem map (h : Fails x P) (f : α → β) : Fails (do return f (← x)) P := by
  intro s e u hx
  rcases bind_eq_error hx with hx | ⟨a, t, -, ha⟩
  · exact h s e u hx
  · cases ha

protected theorem unexpected (what : Expectation) (h : P []) :
    Fails (unexpected what : Parser α) P :=
  .peek (.fail _ h) fun _ => Fails.failsAt (.fail _ h)

end Fails

theorem FailsAt.of_head {x : Parser α} {P : List Token → Prop} {t : Token}
    (h : Fails x fun ts => (∀ u ∈ ts.head?, u = t) → P ts) : FailsAt t x P := by
  intro s e s' hhead hx
  obtain ⟨ts, hs, hts⟩ := h s e s' hx
  refine ⟨ts, hs, hts fun u hu => ?_⟩
  rw [hs, List.head?_append, hu] at hhead
  exact Option.some_inj.mp hhead

theorem FailsAt.advance {t : Token} {k : Unit → Parser α} {P : List Token → Prop}
    (h : Fails (k ()) fun ts => P (t :: ts)) : FailsAt t (advance >>= k) P := by
  intro s e s' hhead hx
  obtain ⟨u, hadvance, hkinds⟩ := advance_bind hhead k
  obtain ⟨ts, hu, hts⟩ := h u e s' (hadvance.symm.trans hx)
  exact ⟨t :: ts, by rw [hkinds, hu, List.cons_append], hts⟩

/-- Something that `D` derives begins with the tokens, and what is missing can be spelled. -/
def Viable (D : α → List Token → Prop) (ts : List Token) : Prop :=
  ∃ a us, D a (ts ++ us) ∧ ∀ x, .identifier x ∈ us → IsIdentifier x

theorem isIdentifier_x : IsIdentifier "x" where
  isWord := ⟨'x', [], rfl, by decide, nofun⟩
  not_keyword k := by cases k <;> decide

theorem Viable.close {D : α → List Token → Prop} {E : β → List Token → Prop} {ts : List Token}
    (h : Viable D ts) (before behind : List Token)
    (hbehind : ∀ x, .identifier x ∈ behind → IsIdentifier x)
    (hE : ∀ a us, D a us → ∃ b, E b (before ++ us ++ behind)) : Viable E (before ++ ts) := by
  obtain ⟨a, us, ha, hus⟩ := h
  obtain ⟨b, hb⟩ := hE a (ts ++ us) ha
  refine ⟨b, us ++ behind, by simpa using hb, fun x hx => ?_⟩
  exact (List.mem_append.mp hx).elim (hus x) (hbehind x)

theorem Viable.after {D : α → List Token → Prop} {E : β → List Token → Prop} {ts : List Token}
    (h : Viable D ts) (before : List Token) (hE : ∀ a us, D a us → ∃ b, E b (before ++ us)) :
    Viable E (before ++ ts) :=
  h.close before [] nofun fun a us ha => by simpa using hE a us ha

theorem derives_zero : Expr.Derives (.literal (.number 0)) [.number 0] := .literal (.number 0)

theorem derives_noStatements : Block.Derives [] [.mark .leftBrace, .mark .rightBrace] := .braces .nil

theorem derives_emptyFunction (name : Name) : Stmt.Derives (.function ⟨name, [], [], []⟩)
    [.keyword .function, .identifier name, .mark .leftParen, .mark .rightParen, .mark .leftBrace,
      .mark .rightBrace] := by
  simpa using Stmt.Derives.function .nil .none derives_noStatements

section Tokens

variable {P : List Token → Prop}

theorem fails_accept (t : Token) : Fails (accept t) P := by
  refine .peek ?_ fun u => ?_
  · rw [if_neg (by simp)]
    exact .pure _
  · by_cases hu : some u = some t
    · rw [if_pos hu]
      exact .advance (.pure _)
    · rw [if_neg hu]
      exact Fails.failsAt (.pure _)

theorem Fails.accept_bind {t : Token} {k : Bool → Parser α}
    (htrue : Fails (k true) fun ts => P (t :: ts)) (hfalse : Fails (k false) P) :
    Fails (accept t >>= k) P := by
  refine (fails_accept t).bind (gives_accept t) fun b ts hts => ?_
  subst hts
  cases b with
  | true => exact htrue
  | false => exact hfalse

theorem fails_expect (m : Mark) (h : P []) : Fails (expect m) P :=
  .accept_bind (.pure _) (.unexpected _ h)

theorem fails_identifier (h : P []) : Fails identifier P := by
  refine .peek (.unexpected _ h) fun t => ?_
  cases t with
  | identifier x => exact .advance (.pure _)
  | _ => exact Fails.failsAt (.unexpected _ h)

theorem fails_literal (h : P []) : Fails literal P := by
  refine .peek (.unexpected _ h) fun t => ?_
  cases t with
  | number n => exact .advance (.pure _)
  | string s => exact .advance (.pure _)
  | keyword k =>
      cases k with
      | true | false => exact .advance (.pure _)
      | _ => exact Fails.failsAt (.unexpected _ h)
  | _ => exact Fails.failsAt (.unexpected _ h)

theorem Fails.expect_bind {m : Mark} {k : Unit → Parser α} (h : P [])
    (hk : Fails (k ()) fun ts => P (.mark m :: ts)) : Fails (expect m >>= k) P := by
  refine (fails_expect m h).bind (gives_expect m) fun _ ts hts => ?_
  subst hts
  exact hk

end Tokens

section Items

variable {item : Parser α} {D : α → List Token → Prop} (hgives : Gives item D)
  (hfails : Fails item (Viable D))

include hgives hfails

theorem fails_moreItems (n : Nat) : Fails (moreItems item n) fun ts =>
    ∀ a us, D a us → Viable (Separated D) (us ++ ts) := by
  have hcons {ts : List Token} {a : α} {us : List Token} (ha : D a us)
      (h : Viable (Separated D) ts) : Viable (Separated D) (us ++ .mark .comma :: ts) := by
    have hlist := h.after (us ++ [.mark .comma]) fun as vs has =>
      ⟨a :: as, by simpa using Separated.cons ha has⟩
    simpa using hlist
  have hitem (ts : List Token) (h : Viable D ts) : Viable (Separated D) ts :=
    h.after [] fun a us ha => ⟨[a], .single ha⟩
  induction n with
  | zero => exact .pure []
  | succ n ih =>
      refine .accept_bind ?_ (.pure [])
      refine (hfails.mono ?_).bind hgives fun b us hb => (ih.mono ?_).map (b :: ·)
      · exact fun ts hts a us ha => hcons ha (hitem ts hts)
      · exact fun ts hts a ws ha => hcons ha (hts b us hb)

theorem fails_items : Fails (items item) (Viable (Separated D)) := by
  refine (hfails.mono ?_).bind hgives fun a us ha => .bound fun n => ?_
  · exact fun ts h => h.after [] fun a us ha => ⟨[a], .single ha⟩
  · exact ((fails_moreItems hgives hfails n).mono fun ts hts => hts a us ha).map (a :: ·)

theorem fails_itemsInParens : Fails (itemsInParens item) fun ts =>
    Viable (Parenthesized D) (.mark .leftParen :: ts) := by
  have hitems : Fails (items item) fun ts => Viable (Parenthesized D) (.mark .leftParen :: ts) :=
    (fails_items hgives hfails).mono fun ts h =>
      h.close [.mark .leftParen] [.mark .rightParen] (by simp) fun as us has => ⟨as, .list has⟩
  refine .peek ?_ fun t => ?_
  · rw [if_neg (by simp)]
    exact hitems
  · by_cases ht : some t = some (.mark .rightParen)
    · rw [if_pos ht]
      exact Fails.failsAt (.pure [])
    · rw [if_neg ht]
      exact hitems.failsAt

end Items

theorem fails_name : Fails identifier (Viable Name.Derives) :=
  fails_identifier ⟨"x", [.identifier "x"], .identifier "x", by simp [isIdentifier_x]⟩

theorem fails_names : Fails names (Viable (Separated Name.Derives)) :=
  fails_items gives_identifier fails_name

theorem fails_expressionWithin (n : Nat) : Fails (expressionWithin n) (Viable Expr.Derives) := by
  have hnothing : Viable Expr.Derives [] := ⟨_, [.number 0], derives_zero, by simp⟩
  have hliteral : Fails (do return Expr.literal (← literal)) (Viable Expr.Derives) :=
    (fails_literal hnothing).map _
  induction n with
  | zero => exact .unexpected _ hnothing
  | succ n ih =>
      refine .peek hliteral fun t => ?_
      cases t with
      | identifier x =>
          refine .advance (.accept_bind ?_ (.pure _))
          have harguments := fails_itemsInParens (gives_expressionWithin n) ih
          refine (harguments.mono fun ts h => ?_).bind
            (gives_itemsInParens (gives_expressionWithin n)) fun arguments us hus => ?_
          · exact h.after [.identifier x] fun arguments us hus => ⟨.call x arguments, .call hus⟩
          · refine .expect_bind ?_ (.pure _)
            exact ⟨.call x arguments, [.mark .rightParen], by simpa using Expr.Derives.call hus,
              by simp⟩
      | _ => exact hliteral.failsAt

theorem fails_expression : Fails expression (Viable Expr.Derives) := .bound fails_expressionWithin

theorem fails_assignment : Fails (do
    let targets ← names
    expect .assign
    return Stmt.assignment targets (← expression)) (Viable Stmt.Derives) := by
  refine (fails_names.mono fun ns h => ?_).bind gives_names fun targets ns htargets =>
    .expect_bind ?_ ((fails_expression.mono fun ts h => ?_).map _)
  · exact h.close [] [.mark .assign, .number 0] (by simp) fun targets ns htargets =>
      ⟨_, .assignment htargets derives_zero⟩
  · have hwhole := Stmt.Derives.assignment htargets derives_zero
    exact ⟨_, [.mark .assign, .number 0], by simpa using hwhole, by simp⟩
  · have hwhole := h.after (ns ++ [.mark .assign]) fun value us hvalue =>
      ⟨Stmt.assignment targets value, by simpa using Stmt.Derives.assignment htargets hvalue⟩
    simpa using hwhole

/-- The parser gets here in front of a name only. No statement begins with a literal. -/
theorem fails_callStatement (x : Name) : Fails (do
    match ← expression with
    | .call f arguments => return Stmt.expression (.call f arguments)
    | _ => fail .bareExpression)
      fun ts => (∀ t ∈ ts.head?, t = .identifier x) → Viable Stmt.Derives ts := by
  have hname (y : Name) : Viable Stmt.Derives [.identifier y] :=
    ⟨.expression (.call y []), [.mark .leftParen, .mark .rightParen], .call .nil, by simp⟩
  refine (fails_expression.mono fun ts h hhead => ?_).bind gives_expression fun e ts he => ?_
  · obtain ⟨e, us, he, hus⟩ := h
    cases ts with
    | nil => exact ⟨_, [.keyword .breakLoop], .breakLoop, by simp⟩
    | cons t ts =>
        obtain rfl : t = .identifier x := hhead t rfl
        generalize htokens : Token.identifier x :: ts ++ us = vs at he
        cases he with
        | var y =>
            obtain ⟨hxy, hnil⟩ := List.cons.inj htokens
            obtain ⟨rfl, rfl⟩ := List.append_eq_nil_iff.mp hnil
            exact hname x
        | literal hl => cases hl <;> cases htokens
        | @call f arguments _ hcall =>
            exact ⟨.expression (.call f arguments), us, htokens ▸ .call hcall, hus⟩
  · cases he with
    | var y => exact .fail _ fun _ => hname y
    | literal hl => exact .fail _ fun hhead => by cases hl <;> cases hhead _ rfl
    | call h => exact .pure _

theorem fails_simpleStatement (x : Name) :
    FailsAt (.identifier x) simpleStatement (Viable Stmt.Derives) := by
  refine .of_head (.peekSecond fun o => ?_)
  split
  · exact fails_assignment.mono fun _ h _ => h
  · exact fails_assignment.mono fun _ h _ => h
  · exact fails_callStatement x

theorem fails_declaration :
    Fails declaration fun ts => Viable Stmt.Derives (.keyword .declare :: ts) := by
  refine (fails_names.mono fun ns h => ?_).bind gives_names fun names ns hnames =>
    .accept_bind ((fails_expression.mono fun ts h => ?_).map _) (.pure _)
  · exact h.after [.keyword .declare] fun names ns hnames => ⟨.declaration names none, by
      simpa using Stmt.Derives.declaration hnames .none⟩
  · have hwhole := h.after (.keyword .declare :: ns ++ [.mark .assign]) fun value us hvalue =>
      ⟨Stmt.declaration names (some value), by
        simpa using Stmt.Derives.declaration hnames (.some hvalue)⟩
    simpa using hwhole

section Nested

variable {block : Parser Block} (hgives : Gives block Block.Derives)
  (hfails : Fails block (Viable Block.Derives))

include hfails

theorem fails_function :
    Fails (function block) fun ts => Viable Stmt.Derives (.keyword .function :: ts) := by
  have hstart : Viable Stmt.Derives [.keyword .function] :=
    ⟨_, _, derives_emptyFunction "x", by simp [isIdentifier_x]⟩
  refine (fails_identifier hstart).bind gives_identifier fun name ns hname => ?_
  cases hname
  refine .expect_bind ⟨_, _, derives_emptyFunction name, by simp⟩ ?_
  refine ((fails_itemsInParens gives_identifier fails_name).mono fun ps h => ?_).bind
    (gives_itemsInParens gives_identifier) fun parameters ps hparameters => .expect_bind ?_ ?_
  · exact h.close [.keyword .function, .identifier name] [.mark .leftBrace, .mark .rightBrace]
      (by simp) fun parameters ps hparameters =>
        ⟨_, by simpa using Stmt.Derives.function hparameters .none derives_noStatements⟩
  · exact ⟨_, [.mark .rightParen, .mark .leftBrace, .mark .rightBrace], by
      simpa using Stmt.Derives.function hparameters .none derives_noStatements, by simp⟩
  have hrest (returns : List Name) (rs : List Token) (hreturns : ReturnsDerive returns rs) : Fails (do
      let body ← block
      return Stmt.function ⟨name, parameters, returns, body⟩) fun ts =>
        Viable Stmt.Derives (.keyword .function :: .identifier name ::
          (Token.mark .leftParen :: ps ++ [Token.mark .rightParen]) ++ rs ++ ts) :=
    (hfails.mono fun ts h => h.after (_ :: _ :: _ ++ _) fun body ts hbody =>
      ⟨_, Stmt.Derives.function hparameters hreturns hbody⟩).map _
  refine .accept_bind ?_ ?_
  · refine (fails_names.mono fun rs h => ?_).bind gives_names fun returns rs hreturns => ?_
    · have hwhole := h.close (.keyword .function :: .identifier name ::
          (Token.mark .leftParen :: ps ++ [Token.mark .rightParen]) ++ [.mark .arrow])
        [.mark .leftBrace, .mark .rightBrace] (by simp) fun returns rs hreturns =>
          ⟨Stmt.function ⟨name, parameters, returns, []⟩, by
            simpa using Stmt.Derives.function hparameters (.some hreturns) derives_noStatements⟩
      simpa using hwhole
    · simpa using hrest returns _ (.some hreturns)
  · simpa using hrest [] [] .none

include hgives

theorem fails_cases (n : Nat) : Fails (cases block n)
    (Viable fun arms ts => Case.DeriveAll arms ts ∧ arms ≠ []) := by
  induction n with
  | zero => exact .pure []
  | succ n ih =>
      refine .accept_bind ?_ (.accept_bind ((hfails.mono fun ts h => ?_).map _) (.pure []))
      · refine (fails_literal ?_).bind gives_literal fun value ls hvalue => ?_
        · exact ⟨_, [.number 0, .mark .leftBrace, .mark .rightBrace],
            ⟨by simpa using Case.DeriveAll.case (.number 0) derives_noStatements .nil, by simp⟩,
            by simp⟩
        refine (hfails.mono fun ts h => ?_).bind hgives fun body us hbody =>
          (ih.mono fun ts h => ?_).map _
        · exact h.after (.keyword .case :: ls) fun body us hbody =>
            ⟨[⟨some value, body⟩], by simpa using Case.DeriveAll.case hvalue hbody .nil, by simp⟩
        · have harm : Viable (fun arms ts => Case.DeriveAll arms ts ∧ arms ≠ [])
              (.keyword .case :: ls ++ us ++ ts) :=
            h.after _ fun arms ts harms => ⟨_, .case hvalue hbody harms.1, nofun⟩
          simpa using harm
      · exact h.after [.keyword .default] fun body us hbody => ⟨_, .default hbody, by simp⟩

theorem fails_switch :
    Fails (switch block) fun ts => Viable Stmt.Derives (.keyword .switch :: ts) := by
  refine (fails_expression.mono fun es h => ?_).bind gives_expression fun scrutinee es hscrutinee =>
    .bound fun n => ((fails_cases hgives hfails n).mono fun ts h => ?_).bind (gives_cases hgives n)
      fun arms ts harms => ?_
  · exact h.close [.keyword .switch] [.keyword .default, .mark .leftBrace, .mark .rightBrace]
      (by simp) fun scrutinee es hscrutinee =>
        ⟨_, .switch hscrutinee (.default derives_noStatements) (by simp)⟩
  · exact h.after (.keyword .switch :: es) fun arms ts harms =>
      ⟨_, .switch hscrutinee harms.1 harms.2⟩
  · cases arms with
    | nil =>
        cases harms
        refine (Fails.fail _ ?_).map _
        have hwhole := Stmt.Derives.switch hscrutinee (.default derives_noStatements) (by simp)
        exact ⟨_, [.keyword .default, .mark .leftBrace, .mark .rightBrace], by simpa using hwhole,
          by simp⟩
    | cons => exact .pure _

theorem fails_loop : Fails (loop block) fun ts => Viable Stmt.Derives (.keyword .loop :: ts) := by
  refine (hfails.mono fun ts h => ?_).bind hgives fun pre ps hpre =>
    (fails_expression.mono fun ts h => ?_).bind gives_expression fun condition cs hcondition =>
    (hfails.mono fun ts h => ?_).bind hgives fun post qs hpost =>
    (hfails.mono fun ts h => ?_).map _
  · refine h.close [.keyword .loop] [.number 0, .mark .leftBrace, .mark .rightBrace,
      .mark .leftBrace, .mark .rightBrace] (by simp) fun pre ps hpre =>
        ⟨.loop pre (.literal (.number 0)) [] [], ?_⟩
    simpa using Stmt.Derives.loop hpre derives_zero derives_noStatements derives_noStatements
  · refine h.close (.keyword .loop :: ps) [.mark .leftBrace, .mark .rightBrace, .mark .leftBrace,
      .mark .rightBrace] (by simp) fun condition cs hcondition => ⟨.loop pre condition [] [], ?_⟩
    simpa using Stmt.Derives.loop hpre hcondition derives_noStatements derives_noStatements
  · have hloop : Viable Stmt.Derives (.keyword .loop :: ps ++ cs ++ ts) :=
      h.close _ [.mark .leftBrace, .mark .rightBrace] (by simp) fun post qs hpost =>
        ⟨_, .loop hpre hcondition hpost derives_noStatements⟩
    simpa using hloop
  · have hloop : Viable Stmt.Derives (.keyword .loop :: ps ++ cs ++ qs ++ ts) :=
      h.after _ fun body ts hbody => ⟨_, .loop hpre hcondition hpost hbody⟩
    simpa using hloop

theorem fails_statement : Fails (statement block) (Viable Stmt.Derives) := by
  have hnothing : Viable Stmt.Derives [] := ⟨_, [.keyword .breakLoop], .breakLoop, by simp⟩
  refine .peek (.unexpected _ hnothing) fun t => ?_
  cases t with
  | identifier x => exact fails_simpleStatement x
  | mark m =>
      cases m with
      | leftBrace =>
          refine Fails.failsAt ((hfails.mono fun ts h => ?_).map _)
          exact h.after [] fun body ts hbody => ⟨_, .block hbody⟩
      | _ => exact Fails.failsAt (.unexpected _ hnothing)
  | keyword k =>
      cases k with
      | function => exact .advance (fails_function hfails)
      | declare => exact .advance fails_declaration
      | conditional =>
          refine .advance ((fails_expression.mono fun cs h => ?_).bind gives_expression
            fun condition cs hcondition => (hfails.mono fun ts h => ?_).map _)
          · exact h.close [.keyword .conditional] [.mark .leftBrace, .mark .rightBrace] (by simp)
              fun condition cs hcondition => ⟨_, .conditional hcondition derives_noStatements⟩
          · exact h.after (.keyword .conditional :: cs) fun body ts hbody =>
              ⟨_, .conditional hcondition hbody⟩
      | switch => exact .advance (fails_switch hgives hfails)
      | loop => exact .advance (fails_loop hgives hfails)
      | breakLoop | continueLoop | leave => exact .advance (.pure _)
      | _ => exact Fails.failsAt (.unexpected _ hnothing)
  | _ => exact Fails.failsAt (.unexpected _ hnothing)

end Nested

theorem fails_statementsWithin (n : Nat) : Fails (statementsWithin n) fun ts =>
    Viable Block.Derives (.mark .leftBrace :: ts) := by
  have hend : Viable Block.Derives [.mark .leftBrace] :=
    ⟨[], [.mark .rightBrace], derives_noStatements, by simp⟩
  induction n with
  | zero => exact .fail _ hend
  | succ n ih =>
      have hblock : Fails (do
          expect .leftBrace
          statementsWithin n) (Viable Block.Derives) :=
        .expect_bind ⟨[], _, derives_noStatements, by simp⟩ ih
      have hmore : Fails (do
          let s ← statement do
            expect .leftBrace
            statementsWithin n
          return s :: (← statementsWithin n)) fun ts =>
            Viable Block.Derives (.mark .leftBrace :: ts) := by
        have hgives := gives_blockWithin n
        refine ((fails_statement hgives hblock).mono fun ts h => ?_).bind (gives_statement hgives)
          fun s ts hs => (ih.mono fun us h => ?_).map _
        · exact h.close [.mark .leftBrace] [.mark .rightBrace] (by simp) fun s ts hs =>
            ⟨[s], by simpa using derives_noStatements.cons hs⟩
        · obtain ⟨ss, vs, hss, hvs⟩ := h
          exact ⟨s :: ss, vs, by simpa using hss.cons hs, hvs⟩
      refine .peek (.fail _ hend) fun t => ?_
      have hbranch := hmore.failsAt (t := t)
      cases t with
      | mark m =>
          cases m with
          | rightBrace => exact .advance (.pure [])
          | _ => exact hbranch
      | _ => exact hbranch

theorem fails_block : Fails block (Viable Block.Derives) :=
  .expect_bind ⟨[], _, derives_noStatements, by simp⟩ (.bound fails_statementsWithin)

/-- When the parser fails, some program begins with what it has taken. -/
theorem fails_program : Fails program (Viable Program.Derives) := by
  refine (fails_block.mono fun ts h => ?_).bind gives_block fun root ts hroot => ?_
  · exact h.after [] fun root ts hroot => ⟨⟨root⟩, hroot⟩
  · have hend : Viable Program.Derives (ts ++ []) := by
      rw [List.append_nil]
      exact ⟨⟨root⟩, [], by rwa [List.append_nil], nofun⟩
    have hfails : Fails expectEnd fun us => Viable Program.Derives (ts ++ us) :=
      .peek (.pure _) fun _ => Fails.failsAt (.unexpected _ hend)
    exact hfails.map _

end Parser

end YulPruner
