import Mathlib
import YulPruner.Proofs.Syntax.Soundness

namespace YulPruner

namespace Parser

/-- In front of any derived tokens, `n` at most, the parser takes just them. -/
def Reads {α : Type} (x : Parser α) (D : α → List Token → Prop) (F : Option Token → Prop)
    (n : Nat) : Prop :=
  ∀ a ts, D a ts → ts.length ≤ n → Takes x F ts a

def Outside (o : Option Token) : Prop :=
  ∀ t ∈ [Token.mark .leftParen, .mark .comma, .mark .assign, .keyword .case, .keyword .default],
    o ≠ some t

section Items

variable {α : Type} {item : Parser α} {D : α → List Token → Prop} {F : Option Token → Prop}
  {n : Nat} {as : List α} {ts : List Token}

theorem takes_moreItems_nil (item : Parser α) (m : Nat) :
    Takes (moreItems item m) (· ≠ some (.mark .comma)) [] [] := by
  cases m with
  | zero => exact .pure []
  | succ m => exact (takes_accept_nil _).bind (.pure []) fun _ ho => ho

theorem length_le_of_separated (h : Separated D as ts) : as.length ≤ ts.length + 1 := by
  induction h with
  | single => simp
  | cons _ _ ih =>
      simp only [List.length_cons, List.length_append]
      omega

variable (h : Reads item D F n) (hcomma : F (some (.mark .comma)))

include h hcomma

theorem takes_moreItems (hs : Separated D as ts) (hn : ts.length ≤ n) (m : Nat)
    (hm : as.length ≤ m) :
    Takes (moreItems item m) (fun o => F o ∧ o ≠ some (.mark .comma)) (.mark .comma :: ts) as := by
  induction hs generalizing m with
  | @single a ts ha =>
      obtain ⟨m, rfl⟩ := Nat.exists_eq_add_one.mpr hm
      have hnil := (takes_moreItems_nil item m).map (a :: ·)
      refine (takes_accept _).bind_any ((h a ts ha hn).bind_nil (hnil.mono ?_) ?_)
      · exact fun o ho => ho.2
      · exact fun o ho => ho.1
  | @cons a ts as us ha hs ih =>
      obtain ⟨m, rfl⟩ := Nat.exists_eq_add_one.mpr (Nat.lt_of_lt_of_le (Nat.succ_pos _) hm)
      simp only [List.length_cons, List.length_append] at hn hm
      have hmore := (ih (by omega) m (by omega)).map (a :: ·)
      exact (takes_accept _).bind_any ((h a ts ha (by omega)).bind hmore fun _ _ => hcomma)

theorem takes_items (hs : Separated D as ts) (hn : ts.length ≤ n) :
    Takes (items item) (fun o => F o ∧ o ≠ some (.mark .comma)) ts as := by
  cases hs with
  | @single a ts ha =>
      refine (h a ts ha hn).bind_nil (.bound fun m _ => ?_) fun o ho => ho.1
      exact ((takes_moreItems_nil item m).map (a :: ·)).mono fun o ho => ho.2
  | @cons a ts as us ha hs =>
      simp only [List.length_cons, List.length_append] at hn
      refine (h a ts ha (by omega)).bind (.bound fun m hm => ?_) fun _ _ => hcomma
      have has := length_le_of_separated hs
      rw [List.length_cons] at hm
      exact (takes_moreItems h hcomma hs (by omega) m (by omega)).map (a :: ·)

theorem takes_itemsInParens (hparen : F (some (.mark .rightParen)))
    (hitem : ∀ a ts, D a ts → ∃ t us, ts = t :: us ∧ t ≠ .mark .rightParen)
    (hs : Parenthesized D as ts) (hn : ts.length ≤ n) :
    ∃ us, ts = Token.mark .leftParen :: us ++ [Token.mark .rightParen] ∧
      Takes (itemsInParens item) (· = some (.mark .rightParen)) us as := by
  cases hs with
  | nil =>
      refine ⟨[], rfl, .peek_nil fun o ho => ?_⟩
      rw [if_pos ho]
      exact .pure []
  | @list _ us hs =>
      refine ⟨us, rfl, ?_⟩
      simp only [List.length_cons, List.length_append] at hn
      have hitems := takes_items h hcomma hs (by omega)
      have hhead : ∃ t vs, us = t :: vs ∧ t ≠ .mark .rightParen := by
        cases hs with
        | single ha => exact hitem _ _ ha
        | cons ha _ =>
            obtain ⟨t, vs, rfl, ht⟩ := hitem _ _ ha
            exact ⟨t, _, rfl, ht⟩
      obtain ⟨t, vs, rfl, ht⟩ := hhead
      refine .peek ?_
      rw [if_neg (by simpa using ht)]
      exact hitems.mono fun o ho => ⟨ho ▸ hparen, by rw [ho]; decide⟩

end Items

theorem reads_identifier (n : Nat) : Reads identifier Name.Derives Any n :=
  fun _ _ hx _ => takes_identifier hx

theorem takes_names {names : List Name} {ts : List Token} (h : Separated Name.Derives names ts) :
    Takes Parser.names (· ≠ some (.mark .comma)) ts names :=
  (takes_items (reads_identifier _) trivial h (Nat.le_refl _)).mono fun _ ho => ⟨trivial, ho⟩

theorem head_of_expression (e : Expr) (ts : List Token) (h : e.Derives ts) :
    ∃ t us, ts = t :: us ∧ t ≠ .mark .rightParen := by
  cases h with
  | var x => exact ⟨_, _, rfl, nofun⟩
  | literal h => cases h <;> exact ⟨_, _, rfl, nofun⟩
  | call h => exact ⟨_, _, rfl, nofun⟩

theorem reads_expressionWithin (n : Nat) :
    Reads (expressionWithin n) Expr.Derives (· ≠ some (.mark .leftParen)) n := by
  induction n with
  | zero =>
      intro e ts he hn
      obtain ⟨t, us, rfl, _⟩ := head_of_expression e ts he
      exact absurd hn (by simp)
  | succ n ih =>
      intro e ts he hn
      cases he with
      | var x => exact .peek (.advance ((takes_accept_nil _).bind_nil (.pure _) fun _ ho => ho))
      | literal h =>
          have hliteral := ((takes_literal h).map Expr.literal).of_any (· ≠ some (.mark .leftParen))
          cases h <;> exact .peek hliteral
      | @call f arguments ts h =>
          rw [List.length_cons] at hn
          obtain ⟨us, rfl, hus⟩ :=
            takes_itemsInParens ih (by decide) (by decide) head_of_expression h (by omega)
          refine .peek (.advance ((takes_accept _).bind_any (hus.bind ?_ fun _ _ => rfl)))
          exact (takes_expect .rightParen).bind_nil (.pure _) fun _ _ => trivial

theorem takes_expression {e : Expr} {ts : List Token} (h : e.Derives ts) :
    Takes expression (· ≠ some (.mark .leftParen)) ts e :=
  .bound fun n hn => reads_expressionWithin n e ts h (Nat.le_of_lt hn)

theorem head_of_names {names : List Name} {ts : List Token} (h : Separated Name.Derives names ts) :
    ∃ x us, ts = .identifier x :: us ∧ (us = [] ∨ ∃ vs, us = .mark .comma :: vs) := by
  cases h with
  | single h =>
      cases h
      exact ⟨_, [], rfl, .inl rfl⟩
  | cons h _ =>
      cases h
      exact ⟨_, _, rfl, .inr ⟨_, rfl⟩⟩

theorem head_of_block {body : Block} {ts : List Token} (h : Block.Derives body ts) :
    ∃ us, ts = .mark .leftBrace :: us := by
  cases h
  exact ⟨_, rfl⟩

/-- The first token of a statement neither closes a block nor continues another statement. -/
theorem head_of_statement {s : Stmt} {ts : List Token} (h : s.Derives ts) :
    ∃ t us, ts = t :: us ∧ t ≠ .mark .rightBrace ∧ Outside (some t) := by
  cases h with
  | block h =>
      obtain ⟨us, rfl⟩ := head_of_block h
      exact ⟨_, us, rfl, nofun, by simp [Outside]⟩
  | assignment h _ =>
      obtain ⟨x, us, rfl, _⟩ := head_of_names h
      exact ⟨_, _, rfl, nofun, by simp [Outside]⟩
  | _ => exact ⟨_, _, rfl, nofun, by simp [Outside]⟩

theorem takes_simpleStatement_assignment {targets : List Name} {value : Expr} {ns ts : List Token}
    (htargets : Separated Name.Derives targets ns) (hvalue : value.Derives ts) :
    Takes simpleStatement Outside (ns ++ .mark .assign :: ts) (.assignment targets value) := by
  have hassignment : Takes (do
      let targets ← names
      expect .assign
      return Stmt.assignment targets (← expression)) Outside (ns ++ .mark .assign :: ts)
        (.assignment targets value) := by
    refine (takes_names htargets).bind ?_ fun _ _ => nofun
    refine (takes_expect .assign).bind_any ?_
    exact ((takes_expression hvalue).map _).mono fun o ho => ho _ (by simp)
  -- behind the first target stands a comma or the sign of assignment
  obtain ⟨x, us, rfl, rfl | ⟨vs, rfl⟩⟩ := head_of_names htargets
  · exact .peekSecond hassignment
  · exact .peekSecond hassignment

theorem takes_simpleStatement_call {f : Name} {arguments : List Expr} {ts : List Token}
    (h : Parenthesized Expr.Derives arguments ts) :
    Takes simpleStatement Outside (.identifier f :: ts) (.expression (.call f arguments)) := by
  have hexpression := takes_expression (.call (f := f) h)
  obtain ⟨us, rfl⟩ : ∃ us, ts = Token.mark .leftParen :: us := by
    cases h <;> exact ⟨_, rfl⟩
  exact .peekSecond (hexpression.bind_nil (.pure _) fun o ho => ho _ (by simp))

theorem takes_declaration {names : List Name} {value : Option Expr} {ns ts : List Token}
    (hnames : Separated Name.Derives names ns) (hvalue : ValueDerives value ts) :
    Takes declaration Outside (ns ++ ts) (.declaration names value) := by
  cases hvalue with
  | none =>
      refine (takes_names hnames).bind ?_ fun o ho => ho _ (by simp)
      exact (takes_accept_nil _).bind_nil (.pure _) fun o ho => ho _ (by simp)
  | @some e ts h =>
      refine (takes_names hnames).bind ?_ fun _ _ => nofun
      refine (takes_accept _).bind_any ?_
      exact ((takes_expression h).map _).mono fun o ho => ho _ (by simp)

section Nested

variable {block : Parser Block} {n : Nat} (h : Reads block Block.Derives Any n)

include h

theorem takes_function (name : Name) {parameters returns : List Name} {body : Block}
    {ps rs ts : List Token} (hparameters : Parenthesized Name.Derives parameters ps)
    (hreturns : ReturnsDerive returns rs) (hbody : Block.Derives body ts) (hn : ts.length ≤ n) :
    Takes (function block) Any (.identifier name :: ps ++ rs ++ ts)
      (.function ⟨name, parameters, returns, body⟩) := by
  obtain ⟨us, rfl, hus⟩ := takes_itemsInParens (reads_identifier ps.length) trivial trivial
    (by rintro _ _ ⟨x⟩; exact ⟨_, _, rfl, nofun⟩) hparameters (Nat.le_refl _)
  have hrest : Takes (do
      let body ← block
      return Stmt.function ⟨name, parameters, returns, body⟩) Any ts
        (.function ⟨name, parameters, returns, body⟩) :=
    (h body ts hbody hn).map fun body => Stmt.function ⟨name, parameters, returns, body⟩
  have hsignature : Takes (do
      let returns ← if ← accept (.mark .arrow) then names else pure []
      let body ← block
      return Stmt.function ⟨name, parameters, returns, body⟩) Any (rs ++ ts)
        (.function ⟨name, parameters, returns, body⟩) := by
    obtain ⟨vs, rfl⟩ := head_of_block hbody
    cases hreturns with
    | none => exact (takes_accept_nil _).bind hrest fun _ _ => nofun
    | some hnames =>
        exact (takes_accept _).bind_any ((takes_names hnames).bind hrest fun _ _ => nofun)
  have htokens : Token.identifier name ::
        (Token.mark .leftParen :: us ++ [Token.mark .rightParen]) ++ rs ++ ts =
      [Token.identifier name] ++
        ([Token.mark .leftParen] ++ (us ++ ([Token.mark .rightParen] ++ (rs ++ ts)))) := by
    simp
  rw [htokens]
  refine (takes_identifier (.identifier name)).bind_any ?_
  refine (takes_expect .leftParen).bind_any ?_
  exact hus.bind ((takes_expect .rightParen).bind_any hsignature) fun _ _ => rfl

theorem takes_cases {arms : List Case} {ts : List Token} (harms : Case.DeriveAll arms ts)
    (hn : ts.length ≤ n) (m : Nat) (hm : ts.length ≤ m) :
    Takes (cases block m) Outside ts arms := by
  induction m generalizing arms ts with
  | zero =>
      cases harms with
      | nil => exact .pure []
      | default | case => simp at hm
  | succ m ih =>
      cases harms with
      | nil =>
          refine (takes_accept_nil _).bind_nil ?_ fun o ho => ho _ (by simp)
          exact (takes_accept_nil _).bind_nil (.pure []) fun o ho => ho _ (by simp)
      | @default body ts hbody =>
          rw [List.length_cons] at hn
          have harm := (h body ts hbody (by omega)).map fun body => [(⟨none, body⟩ : Case)]
          refine (takes_accept_nil _).bind ?_ fun _ _ => nofun
          exact (takes_accept _).bind_any (harm.of_any _)
      | @case value body arms ls ts us hvalue hbody harms =>
          simp only [List.length_cons, List.length_append] at hn hm
          have hrest := (ih harms (by omega) (by omega)).map (⟨some value, body⟩ :: ·)
          rw [List.cons_append, List.cons_append, List.append_assoc]
          refine (takes_accept _).bind_any ((takes_literal hvalue).bind_any ?_)
          exact (h body ts hbody (by omega)).bind_any hrest

theorem takes_switch {scrutinee : Expr} {arms : List Case} {es ts : List Token}
    (hscrutinee : scrutinee.Derives es) (harms : Case.DeriveAll arms ts) (hne : arms ≠ [])
    (hn : ts.length ≤ n) :
    Takes (switch block) Outside (es ++ ts) (.switch scrutinee arms) := by
  have hempty : ¬ arms.isEmpty = true := by simpa using hne
  refine (takes_expression hscrutinee).bind (.bound fun m hm => ?_) ?_
  · refine (takes_cases h harms hn m (Nat.le_of_lt hm)).bind_nil ?_ fun _ ho => ho
    simp only [if_neg hempty]
    exact .pure _
  · cases harms with
    | nil => exact absurd rfl hne
    | default | case => exact fun _ _ => nofun

theorem takes_loop {pre post body : Block} {condition : Expr} {ps cs qs ts : List Token}
    (hpre : Block.Derives pre ps) (hcondition : condition.Derives cs)
    (hpost : Block.Derives post qs) (hbody : Block.Derives body ts)
    (hn : (ps ++ cs ++ qs ++ ts).length ≤ n) :
    Takes (loop block) Any (ps ++ cs ++ qs ++ ts) (.loop pre condition post body) := by
  simp only [List.length_append] at hn
  have hlast := (h body ts hbody (by omega)).map (Stmt.loop pre condition post)
  rw [List.append_assoc, List.append_assoc]
  refine (h pre ps hpre (by omega)).bind_any ((takes_expression hcondition).bind ?_ ?_)
  · exact (h post qs hpost (by omega)).bind_any hlast
  · obtain ⟨us, rfl⟩ := head_of_block hpost
    exact fun _ _ => nofun

theorem reads_statement : Reads (statement block) Stmt.Derives Outside n := by
  intro s ts hs hn
  cases hs with
  | @block body ts hbody =>
      have hblock := (h body ts hbody hn).map Stmt.block
      obtain ⟨us, rfl⟩ := head_of_block hbody
      exact .peek (hblock.of_any _)
  | @function name _ _ _ _ _ _ hparameters hreturns hbody =>
      simp only [List.length_cons, List.length_append] at hn
      have hfunction := takes_function h name hparameters hreturns hbody (by omega)
      exact .peek (.advance (hfunction.of_any _))
  | declaration hnames hvalue => exact .peek (.advance (takes_declaration hnames hvalue))
  | @conditional condition body cs ts hcondition hbody =>
      simp only [List.length_cons, List.length_append] at hn
      have hblock := (h body ts hbody (by omega)).map (Stmt.conditional condition)
      refine .peek (.advance ((takes_expression hcondition).bind (hblock.of_any _) ?_))
      obtain ⟨us, rfl⟩ := head_of_block hbody
      exact fun _ _ => nofun
  | switch hscrutinee harms hne =>
      simp only [List.length_cons, List.length_append] at hn
      exact .peek (.advance (takes_switch h hscrutinee harms hne (by omega)))
  | loop hpre hcondition hpost hbody =>
      simp only [List.length_cons, List.length_append] at hn
      have hloop := takes_loop h hpre hcondition hpost hbody
        (by simp only [List.length_append]; omega)
      exact .peek (.advance (hloop.of_any _))
  | breakLoop => exact .peek (.advance (.pure _))
  | continueLoop => exact .peek (.advance (.pure _))
  | leave => exact .peek (.advance (.pure _))
  | assignment htargets hvalue =>
      have hassignment := takes_simpleStatement_assignment htargets hvalue
      obtain ⟨x, us, rfl, _⟩ := head_of_names htargets
      exact .peek hassignment
  | call hcall => exact .peek (takes_simpleStatement_call hcall)

end Nested

theorem takes_statementsWithin (n : Nat) {body : Block} {ts : List Token}
    (h : Stmt.DeriveAll body ts) (hn : ts.length < n) :
    Takes (statementsWithin n) Any (ts ++ [Token.mark .rightBrace]) body := by
  -- A block in a statement is shorter by its opening brace at least, so it is left to the bound below.
  induction n generalizing body ts with
  | zero => exact absurd hn (Nat.not_lt_zero _)
  | succ n ih =>
      have hblock : Reads (do
          expect .leftBrace
          statementsWithin n) Block.Derives Any n := by
        intro body ts hbody hts
        cases hbody with
        | @braces _ us hbody =>
            simp only [List.length_cons, List.length_append] at hts
            exact (takes_expect .leftBrace).bind_any (ih hbody (by omega))
      cases h with
      | nil => exact .peek (.advance (.pure []))
      | @cons s ss ts us hs hss =>
          obtain ⟨t, vs, rfl, ht, _⟩ := head_of_statement hs
          simp only [List.length_append, List.length_cons] at hn
          have hlength : (t :: vs).length ≤ n := by
            rw [List.length_cons]
            omega
          have hstatement := reads_statement hblock s (t :: vs) hs hlength
          have hrest := (ih hss (by omega)).map (s :: ·)
          rw [List.append_assoc]
          have hmore : Takes (do
              let s ← statement do
                expect .leftBrace
                statementsWithin n
              return s :: (← statementsWithin n)) Any (t :: vs ++ (us ++ [Token.mark .rightBrace]))
                (s :: ss) := by
            refine hstatement.bind hrest fun _ _ => ?_
            -- the next statement does not go on with this one
            cases hss with
            | nil => simp [Outside]
            | cons hnext _ =>
                obtain ⟨u, ws, rfl, _, hu⟩ := head_of_statement hnext
                exact hu
          refine .peek ?_
          split
          · next heq => exact absurd (Option.some.inj heq) ht
          · next heq => cases heq
          · exact hmore

theorem takes_block {body : Block} {ts : List Token} (h : Block.Derives body ts) :
    Takes block Any ts body := by
  cases h with
  | @braces _ ts h =>
      refine (takes_expect .leftBrace).bind_any (.bound fun n hn => ?_)
      refine takes_statementsWithin n h (Nat.lt_of_le_of_lt ?_ hn)
      exact (List.sublist_append_left ts _).length_le

theorem takes_program {p : Program} {ts : List Token} (h : p.Derives ts) :
    Takes program (· = none) ts p := by
  refine (takes_block h).bind_nil ?_ fun _ _ => trivial
  have hend : Takes expectEnd (· = none) [] () := by
    refine .peek_nil fun o ho => ?_
    subst ho
    exact .pure ()
  exact hend.bind_nil (.pure _) fun _ ho => ho

theorem program_eq_ok_iff (s : TokenStream) (p : Program) :
    (∃ rest, program s = .ok p rest) ↔ p.Derives s.kinds := by
  constructor
  · rintro ⟨rest, h⟩
    exact derives_of_program h
  · intro h
    obtain ⟨rest, hrest, _⟩ := takes_program h s [] (List.append_nil _).symm rfl
    exact ⟨rest, hrest⟩

end Parser

theorem parse_eq_ok_iff {source : String} {s : TokenStream} (h : tokenize source = .ok s)
    (p : Program) : parse source = .ok p ↔ p.Derives s.kinds := by
  rw [← Parser.program_eq_ok_iff, parse, h]
  simp only [bind, Except.bind, EStateM.run]
  cases Parser.program s with
  | ok q rest => simp [pure, Except.pure]
  | error e rest => simp

theorem Program.Derives.unique {p q : Program} {ts : List Token} (hp : p.Derives ts)
    (hq : q.Derives ts) : p = q := by
  let s : TokenStream := ⟨ts.map (⟨.start, ·⟩), .start⟩
  have hs : s.kinds = ts ++ [] := by simp [s, TokenStream.kinds, Function.comp_def]
  obtain ⟨_, hrunp, _⟩ := Parser.takes_program hp s [] hs rfl
  obtain ⟨_, hrunq, _⟩ := Parser.takes_program hq s [] hs rfl
  rw [hrunp] at hrunq
  cases hrunq
  rfl

/-- The parser accepts its grammar and nothing else, and the grammar is unambiguous. -/
theorem parse_exact_and_unambiguous :
    (∀ source s, tokenize source = .ok s → ∀ p, parse source = .ok p ↔ p.Derives s.kinds) ∧
    (∀ s p, (∃ rest, Parser.program.run s = .ok p rest) ↔ p.Derives s.kinds) ∧
    ∀ (ts : List Token) (p q : Program), p.Derives ts → q.Derives ts → p = q :=
  ⟨fun _ _ h => parse_eq_ok_iff h, Parser.program_eq_ok_iff, fun _ _ _ => Program.Derives.unique⟩

theorem parse_exact_declaration_call :
    Program.Derives ⟨[.declaration ["x"] none, .expression (.call "f" [.var "x"])]⟩
      [.mark .leftBrace, .keyword .declare, .identifier "x", .identifier "f", .mark .leftParen,
        .identifier "x", .mark .rightParen, .mark .rightBrace] := by
  have htokens : tokenize "\x7blet x f(x)\x7d" = .ok
      ⟨[⟨⟨1, 1⟩, .mark .leftBrace⟩, ⟨⟨1, 2⟩, .keyword .declare⟩, ⟨⟨1, 6⟩, .identifier "x"⟩,
        ⟨⟨1, 8⟩, .identifier "f"⟩, ⟨⟨1, 9⟩, .mark .leftParen⟩, ⟨⟨1, 10⟩, .identifier "x"⟩,
        ⟨⟨1, 11⟩, .mark .rightParen⟩, ⟨⟨1, 12⟩, .mark .rightBrace⟩], ⟨1, 13⟩⟩ := by cbv
  have hparse : parse "\x7blet x f(x)\x7d" =
      .ok ⟨[.declaration ["x"] none, .expression (.call "f" [.var "x"])]⟩ := by cbv
  exact (parse_exact_and_unambiguous.1 _ _ htokens _).mp hparse

end YulPruner
