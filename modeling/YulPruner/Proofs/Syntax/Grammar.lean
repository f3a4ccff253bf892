import YulPruner.Token.Lexer

namespace YulPruner

def TokenStream.kinds (s : TokenStream) : List Token := s.tokens.map Located.value

/-- One item or more, with commas between them. -/
inductive Separated {α : Type} (D : α → List Token → Prop) : List α → List Token → Prop
  | single {a ts} (h : D a ts) : Separated D [a] ts
  | cons {a ts as us} (h : D a ts) (hs : Separated D as us) :
      Separated D (a :: as) (ts ++ .mark .comma :: us)

/-- A list of items in parentheses, which may be empty. -/
inductive Parenthesized {α : Type} (D : α → List Token → Prop) : List α → List Token → Prop
  | nil : Parenthesized D [] [.mark .leftParen, .mark .rightParen]
  | list {as ts} (h : Separated D as ts) :
      Parenthesized D as (Token.mark .leftParen :: ts ++ [Token.mark .rightParen])

inductive Name.Derives : Name → List Token → Prop
  | identifier (x : Name) : Derives x [.identifier x]

inductive Literal.Derives : Literal → List Token → Prop
  | number (n : Word) : Derives (.number n) [.number n]
  | string (s : String) : Derives (.string s) [.string s]
  | true : Derives (.bool true) [.keyword .true]
  | false : Derives (.bool false) [.keyword .false]

inductive Expr.Derives : Expr → List Token → Prop
  | var (x : Name) : Derives (.var x) [.identifier x]
  | literal {l ts} (h : Literal.Derives l ts) : Derives (.literal l) ts
  | call {f arguments ts} (h : Parenthesized Derives arguments ts) :
      Derives (.call f arguments) (.identifier f :: ts)

inductive ValueDerives : Option Expr → List Token → Prop
  | none : ValueDerives none []
  | some {e ts} (h : e.Derives ts) : ValueDerives (some e) (.mark .assign :: ts)

inductive ReturnsDerive : List Name → List Token → Prop
  | none : ReturnsDerive [] []
  | some {names ts} (h : Separated Name.Derives names ts) :
      ReturnsDerive names (.mark .arrow :: ts)

mutual

inductive Stmt.Derives : Stmt → List Token → Prop
  | block {body ts} (h : Block.Derives body ts) : Stmt.Derives (.block body) ts
  | function {name parameters returns body ps rs ts}
      (hparameters : Parenthesized Name.Derives parameters ps)
      (hreturns : ReturnsDerive returns rs) (hbody : Block.Derives body ts) :
      Stmt.Derives (.function ⟨name, parameters, returns, body⟩)
        (.keyword .function :: .identifier name :: ps ++ rs ++ ts)
  | declaration {names value ns ts} (hnames : Separated Name.Derives names ns)
      (hvalue : ValueDerives value ts) :
      Stmt.Derives (.declaration names value) (.keyword .declare :: ns ++ ts)
  | conditional {condition body cs ts} (hcondition : condition.Derives cs)
      (hbody : Block.Derives body ts) :
      Stmt.Derives (.conditional condition body) (.keyword .conditional :: cs ++ ts)
  | switch {scrutinee cases es ts} (hscrutinee : scrutinee.Derives es)
      (hcases : Case.DeriveAll cases ts) (hne : cases ≠ []) :
      Stmt.Derives (.switch scrutinee cases) (.keyword .switch :: es ++ ts)
  | loop {pre condition post body ps cs qs ts} (hpre : Block.Derives pre ps)
      (hcondition : condition.Derives cs) (hpost : Block.Derives post qs)
      (hbody : Block.Derives body ts) :
      Stmt.Derives (.loop pre condition post body) (.keyword .loop :: ps ++ cs ++ qs ++ ts)
  | breakLoop : Stmt.Derives (.jump .breakLoop) [.keyword .breakLoop]
  | continueLoop : Stmt.Derives (.jump .continueLoop) [.keyword .continueLoop]
  | leave : Stmt.Derives (.jump .leave) [.keyword .leave]
  | assignment {targets value ns ts} (htargets : Separated Name.Derives targets ns)
      (hvalue : value.Derives ts) :
      Stmt.Derives (.assignment targets value) (ns ++ .mark .assign :: ts)
  | call {f arguments ts} (h : Parenthesized Expr.Derives arguments ts) :
      Stmt.Derives (.expression (.call f arguments)) (.identifier f :: ts)

inductive Block.Derives : Block → List Token → Prop
  | braces {body ts} (h : Stmt.DeriveAll body ts) :
      Block.Derives body (Token.mark .leftBrace :: ts ++ [Token.mark .rightBrace])

inductive Stmt.DeriveAll : List Stmt → List Token → Prop
  | nil : Stmt.DeriveAll [] []
  | cons {s ss ts us} (h : s.Derives ts) (hs : Stmt.DeriveAll ss us) :
      Stmt.DeriveAll (s :: ss) (ts ++ us)

/-- The arms of a switch. A default arm is the last one. -/
inductive Case.DeriveAll : List Case → List Token → Prop
  | nil : Case.DeriveAll [] []
  | default {body ts} (h : Block.Derives body ts) :
      Case.DeriveAll [⟨none, body⟩] (.keyword .default :: ts)
  | case {value body cases ls ts us} (hvalue : Literal.Derives value ls)
      (hbody : Block.Derives body ts) (hs : Case.DeriveAll cases us) :
      Case.DeriveAll (⟨some value, body⟩ :: cases) (.keyword .case :: ls ++ ts ++ us)

end

theorem Block.Derives.cons {s : Stmt} {ss : Block} {ts us : List Token} (hs : s.Derives ts)
    (hss : Block.Derives ss (.mark .leftBrace :: us)) :
    Block.Derives (s :: ss) (.mark .leftBrace :: (ts ++ us)) := by
  generalize hus : Token.mark .leftBrace :: us = vs at hss
  cases hss with
  | @braces _ ws hss =>
      obtain rfl : us = ws ++ [Token.mark .rightBrace] := (List.cons.inj hus).2
      have hwhole := Block.Derives.braces (.cons hs hss)
      simpa using hwhole

/-- The end of the text stands behind the root block. -/
def Program.Derives (p : Program) (ts : List Token) : Prop := Block.Derives p.root ts

end YulPruner
