import YulPruner.Proofs.Syntax.Taking

namespace YulPruner

namespace Parser

section Items

variable {α : Type} {item : Parser α} {D : α → List Token → Prop} (h : Gives item D)

include h

theorem gives_moreItems (n : Nat) : Gives (moreItems item n) fun as ts =>
    ∀ a us, D a us → Separated D (a :: as) (us ++ ts) := by
  induction n with
  | zero =>
      refine .pure fun a us ha => ?_
      rw [List.append_nil]
      exact .single ha
  | succ n ih =>
      refine (gives_accept (.mark .comma)).bind fun b ts hts => ?_
      cases b with
      | true =>
          subst hts
          refine h.bind fun a us ha => ih.bind fun as vs has => .pure fun b ws hb => ?_
          have hlist := Separated.cons hb (has a us ha)
          simpa using hlist
      | false =>
          subst hts
          refine .pure fun a us ha => ?_
          simpa using Separated.single ha

theorem gives_items : Gives (items item) (Separated D) := by
  refine h.bind fun a us ha => .bound fun n => ?_
  refine (gives_moreItems h n).bind fun as ts has => .pure ?_
  rw [List.append_nil]
  exact has a us ha

theorem gives_itemsInParens : Gives (itemsInParens item) fun as ts =>
    Parenthesized D as (Token.mark .leftParen :: ts ++ [Token.mark .rightParen]) := by
  refine .peek ?_ fun t => ?_
  · rw [if_neg (by simp)]
    exact (gives_items h).mono fun as ts has => .list has
  · by_cases ht : some t = some (.mark .rightParen)
    · rw [if_pos ht]
      exact Gives.givesAt (.pure .nil)
    · rw [if_neg ht]
      exact Gives.givesAt ((gives_items h).mono fun as ts has => .list has)

end Items

theorem gives_names : Gives names (Separated Name.Derives) := gives_items gives_identifier

theorem gives_expressionWithin (n : Nat) : Gives (expressionWithin n) Expr.Derives := by
  induction n with
  | zero => exact .unexpected _
  | succ n ih =>
      have hliteral : Gives (do return Expr.literal (← literal)) Expr.Derives := by
        refine gives_literal.bind fun l ts hl => .pure ?_
        rw [List.append_nil]
        exact .literal hl
      refine .peek hliteral fun t => ?_
      cases t with
      | identifier x =>
          refine .advance ((gives_accept (.mark .leftParen)).bind fun b ts hts => ?_)
          cases b with
          | true =>
              subst hts
              refine (gives_itemsInParens ih).bind fun arguments us hus => ?_
              refine (gives_expect .rightParen).bind fun _ vs hvs => .pure ?_
              subst hvs
              rw [List.append_nil]
              exact .call hus
          | false =>
              subst hts
              exact .pure (.var x)
      | _ => exact hliteral.givesAt

theorem gives_expression : Gives expression Expr.Derives := .bound gives_expressionWithin

theorem gives_simpleStatement : Gives simpleStatement Stmt.Derives := by
  have hassignment : Gives (do
      let targets ← names
      expect .assign
      return Stmt.assignment targets (← expression)) Stmt.Derives := by
    refine gives_names.bind fun targets ns htargets => ?_
    refine (gives_expect .assign).bind fun _ ts hts => ?_
    subst hts
    refine gives_expression.bind fun value us hvalue => .pure ?_
    rw [List.append_nil]
    exact .assignment htargets hvalue
  refine .peekSecond fun o => ?_
  split
  · exact hassignment
  · exact hassignment
  · refine gives_expression.bind fun e ts he => ?_
    cases he with
    | var x => exact .fail _
    | literal h => exact .fail _
    | call h =>
        refine .pure ?_
        rw [List.append_nil]
        exact .call h

theorem gives_declaration :
    Gives declaration fun s ts => s.Derives (.keyword .declare :: ts) := by
  refine gives_names.bind fun names ns hnames => ?_
  refine (gives_accept (.mark .assign)).bind fun b ts hts => ?_
  cases b with
  | true =>
      subst hts
      refine gives_expression.bind fun value us hvalue => .pure ?_
      rw [List.append_nil]
      exact .declaration hnames (.some hvalue)
  | false =>
      subst hts
      refine .pure ?_
      rw [List.append_nil]
      exact .declaration hnames .none

section Nested

variable {block : Parser Block} (h : Gives block Block.Derives)

include h

theorem gives_function :
    Gives (function block) fun s ts => s.Derives (.keyword .function :: ts) := by
  refine gives_identifier.bind fun name ns hname => ?_
  cases hname
  refine (gives_expect .leftParen).bind fun _ ls hls => ?_
  subst hls
  refine (gives_itemsInParens gives_identifier).bind fun parameters ps hparameters => ?_
  refine (gives_expect .rightParen).bind fun _ qs hqs => ?_
  subst hqs
  have hrest : ∀ returns rs, ReturnsDerive returns rs → Gives (do
      let body ← block
      return Stmt.function ⟨name, parameters, returns, body⟩) fun s ts =>
        s.Derives (.keyword .function :: .identifier name ::
          (Token.mark .leftParen :: ps ++ [Token.mark .rightParen]) ++ rs ++ ts) := by
    intro returns rs hreturns
    refine h.bind fun body ts hbody => .pure ?_
    rw [List.append_nil]
    exact .function hparameters hreturns hbody
  refine (gives_accept (.mark .arrow)).bind fun b ts hts => ?_
  subst hts
  cases b with
  | true =>
      refine gives_names.bind fun names us hnames => ?_
      simpa using hrest names _ (.some hnames)
  | false => simpa using hrest [] [] .none

theorem gives_cases (n : Nat) : Gives (cases block n) Case.DeriveAll := by
  induction n with
  | zero => exact .pure .nil
  | succ n ih =>
      refine (gives_accept (.keyword .case)).bind fun b ts hts => ?_
      cases b with
      | true =>
          subst hts
          refine gives_literal.bind fun value ls hvalue => h.bind fun body us hbody => ?_
          refine ih.bind fun cases vs hcases => .pure ?_
          have hwhole := Case.DeriveAll.case hvalue hbody hcases
          simpa using hwhole
      | false =>
          subst hts
          refine (gives_accept (.keyword .default)).bind fun b ts hts => ?_
          subst hts
          cases b with
          | true =>
              refine h.bind fun body us hbody => .pure ?_
              rw [List.append_nil]
              exact .default hbody
          | false => exact .pure .nil

theorem gives_switch : Gives (switch block) fun s ts => s.Derives (.keyword .switch :: ts) := by
  refine gives_expression.bind fun scrutinee es hscrutinee => .bound fun n => ?_
  refine (gives_cases h n).bind fun cases ts hcases => ?_
  by_cases hne : cases = []
  · subst hne
    exact (Gives.fail (α := Unit) (D := fun _ _ => False) _).bind fun _ _ h => h.elim
  · have hempty : ¬ cases.isEmpty = true := by simpa using hne
    simp only [if_neg hempty]
    refine .pure ?_
    rw [List.append_nil]
    exact .switch hscrutinee hcases hne

theorem gives_loop : Gives (loop block) fun s ts => s.Derives (.keyword .loop :: ts) := by
  refine h.bind fun pre ps hpre => gives_expression.bind fun condition cs hcondition => ?_
  refine h.bind fun post qs hpost => h.bind fun body ts hbody => .pure ?_
  have hwhole := Stmt.Derives.loop hpre hcondition hpost hbody
  simpa using hwhole

theorem gives_statement : Gives (statement block) Stmt.Derives := by
  refine .peek (.unexpected _) fun t => ?_
  cases t with
  | identifier x => exact gives_simpleStatement.givesAt
  | mark m =>
      cases m with
      | leftBrace =>
          refine Gives.givesAt (h.bind fun body ts hbody => .pure ?_)
          rw [List.append_nil]
          exact .block hbody
      | _ => exact Gives.givesAt (.unexpected _)
  | keyword k =>
      cases k with
      | function => exact .advance (gives_function h)
      | declare => exact .advance gives_declaration
      | conditional =>
          refine .advance (gives_expression.bind fun condition cs hcondition => ?_)
          refine h.bind fun body ts hbody => .pure ?_
          rw [List.append_nil]
          exact .conditional hcondition hbody
      | switch => exact .advance (gives_switch h)
      | loop => exact .advance (gives_loop h)
      | breakLoop => exact .advance (.pure .breakLoop)
      | continueLoop => exact .advance (.pure .continueLoop)
      | leave => exact .advance (.pure .leave)
      | _ => exact Gives.givesAt (.unexpected _)
  | _ => exact Gives.givesAt (.unexpected _)

end Nested

theorem gives_statementsWithin (n : Nat) : Gives (statementsWithin n) fun body ts =>
    Block.Derives body (.mark .leftBrace :: ts) := by
  induction n with
  | zero => exact .fail _
  | succ n ih =>
      have hblock : Gives (do
          expect .leftBrace
          statementsWithin n) Block.Derives := by
        refine (gives_expect .leftBrace).bind fun _ ts hts => ?_
        subst hts
        exact ih
      have hmore : Gives (do
          let s ← statement do
            expect .leftBrace
            statementsWithin n
          return s :: (← statementsWithin n)) fun body ts =>
            Block.Derives body (.mark .leftBrace :: ts) := by
        refine (gives_statement hblock).bind fun s ts hs => ih.bind fun ss us hss => .pure ?_
        rw [List.append_nil]
        exact hss.cons hs
      refine .peek (.fail _) fun t => ?_
      by_cases ht : t = .mark .rightBrace
      · subst ht
        exact .advance (.pure (.braces .nil))
      · have hbranch := hmore.givesAt (t := t)
        split
        · next heq => exact absurd (Option.some.inj heq) ht
        · next heq => cases heq
        · exact hbranch

theorem gives_blockWithin (n : Nat) : Gives (do
    expect .leftBrace
    statementsWithin n) Block.Derives := by
  refine (gives_expect .leftBrace).bind fun _ ts hts => ?_
  subst hts
  exact gives_statementsWithin n

theorem gives_block : Gives block Block.Derives := by
  refine (gives_expect .leftBrace).bind fun _ ts hts => .bound fun n => ?_
  subst hts
  exact gives_statementsWithin n

theorem kinds_of_expectEnd {s s' : TokenStream} {a : Unit} (h : expectEnd s = .ok a s') :
    s.kinds = [] := by
  rw [expectEnd, peek?_bind] at h
  cases hkinds : s.kinds with
  | nil => rfl
  | cons t ts =>
      rw [hkinds, List.head?_cons] at h
      obtain ⟨_, _, hnever⟩ := Gives.unexpected (D := fun _ _ => False) _ s a s' h
      exact hnever.elim

theorem derives_of_program {s s' : TokenStream} {p : Program} (h : program s = .ok p s') :
    p.Derives s.kinds := by
  obtain ⟨root, t, hroot, hrest⟩ := bind_eq_ok.mp h
  obtain ⟨ts, hs, hderives⟩ := gives_block s root t hroot
  obtain ⟨_, u, hend, hp⟩ := bind_eq_ok.mp hrest
  cases hp
  rw [hs, kinds_of_expectEnd hend, List.append_nil]
  exact hderives

end Parser

end YulPruner
