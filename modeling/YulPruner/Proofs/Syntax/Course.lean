import Mathlib.Data.List.Basic
import YulPruner.Syntax.Fragment

namespace YulPruner

inductive Part where
  | expression
  /-- The arguments of a call behind the first one. -/
  | moreArguments
  | moreNames
  /-- Statements up to a closing brace, which is taken. -/
  | statements
  /-- The arms of a switch that are left. -/
  | cases

abbrev Part.Answer : Part → Type
  | .expression => Expr
  | .moreArguments => List Expr
  | .moreNames => List Name
  | .statements => Block
  | .cases => List Case

inductive Course (α : Type) : Type where
  | done (a : α)
  | fail (fault : Fault)
  /-- Looks at the next token. -/
  | peek (k : Option Token → Course α)
  /-- Looks at the token behind the next one. -/
  | peekSecond (k : Option Token → Course α)
  | advance (k : Course α)
  | ask (part : Part) (k : part.Answer → Course α)

namespace Course

variable {α β : Type}

protected def bind : Course α → (α → Course β) → Course β
  | .done a, k => k a
  | .fail fault, _ => .fail fault
  | .peek l, k => .peek fun o => (l o).bind k
  | .peekSecond l, k => .peekSecond fun o => (l o).bind k
  | .advance l, k => .advance (l.bind k)
  | .ask part l, k => .ask part fun a => (l a).bind k

instance : Monad Course where
  pure := .done
  bind := Course.bind

def next? : Course (Option Token) := .peek pure

def second? : Course (Option Token) := .peekSecond pure

def skip : Course Unit := .advance (pure ())

def read (part : Part) : Course part.Answer := .ask part pure

def unexpected (what : Expectation) : Course α := do
  .fail (.expected what (← next?))

def accept (t : Token) : Course Bool := do
  if (← next?) = some t then
    skip
    return true
  else
    return false

def expect (m : Mark) : Course Unit := do
  unless ← accept (.mark m) do
    unexpected (.mark m)

def expectEnd : Course Unit := do
  if (← next?).isSome then
    unexpected .endOfInput

def identifier : Course Name := do
  match ← next? with
  | some (.identifier x) => do
    skip
    return x
  | _ => unexpected .identifier

def literal : Course Literal := do
  match ← next? with
  | some (.number n) => do
    skip
    return .number n
  | some (.string s) => do
    skip
    return .string s
  | some (.keyword .true) => do
    skip
    return .bool true
  | some (.keyword .false) => do
    skip
    return .bool false
  | _ => unexpected .literal

section Items

variable (item : Course α) (more : Course (List α))

def moreItems : Course (List α) := do
  if ← accept (.mark .comma) then
    let a ← item
    return a :: (← more)
  else
    return []

def items : Course (List α) := do
  let a ← item
  return a :: (← more)

def itemsInParens : Course (List α) := do
  if (← next?) = some (.mark .rightParen) then
    return []
  else
    items item more

end Items

def names : Course (List Name) := items identifier (read .moreNames)

def expression : Course Expr := do
  match ← next? with
  | some (.identifier x) => do
    skip
    if ← accept (.mark .leftParen) then
      let arguments ← itemsInParens (read .expression) (read .moreArguments)
      expect .rightParen
      return .call x arguments
    else
      return .var x
  | _ => return .literal (← literal)

def assignment : Course Stmt := do
  let targets ← names
  expect .assign
  return .assignment targets (← read .expression)

def callStatement : Course Stmt := do
  match ← read .expression with
  | .call f arguments => return .expression (.call f arguments)
  | _ => .fail .bareExpression

def simpleStatement : Course Stmt := do
  match ← second? with
  | some (.mark .assign) | some (.mark .comma) => assignment
  | _ => callStatement

def declaration : Course Stmt := do
  let xs ← names
  if ← accept (.mark .assign) then
    return .declaration xs (some (← read .expression))
  else
    return .declaration xs none

def block : Course Block := do
  expect .leftBrace
  read .statements

def function : Course Stmt := do
  let name ← identifier
  expect .leftParen
  let parameters ← itemsInParens identifier (read .moreNames)
  expect .rightParen
  let returns ← if ← accept (.mark .arrow) then names else pure []
  let body ← block
  return .function ⟨name, parameters, returns, body⟩

def cases : Course (List Case) := do
  if ← accept (.keyword .case) then
    let value ← literal
    let body ← block
    return ⟨some value, body⟩ :: (← read .cases)
  else if ← accept (.keyword .default) then
    return [⟨none, ← block⟩]
  else
    return []

def switch : Course Stmt := do
  let scrutinee ← read .expression
  let arms ← read .cases
  if arms.isEmpty then
    .fail .emptySwitch
  return .switch scrutinee arms

def loop : Course Stmt := do
  let pre ← block
  let condition ← read .expression
  let post ← block
  let body ← block
  return .loop pre condition post body

def statement : Course Stmt := do
  match ← next? with
  | some (.mark .leftBrace) => return .block (← block)
  | some (.keyword .function) => do
    skip
    function
  | some (.keyword .declare) => do
    skip
    declaration
  | some (.keyword .conditional) => do
    skip
    let condition ← read .expression
    return .conditional condition (← block)
  | some (.keyword .switch) => do
    skip
    switch
  | some (.keyword .loop) => do
    skip
    loop
  | some (.keyword .breakLoop) => do
    skip
    return .jump .breakLoop
  | some (.keyword .continueLoop) => do
    skip
    return .jump .continueLoop
  | some (.keyword .leave) => do
    skip
    return .jump .leave
  | some (.identifier _) => simpleStatement
  | _ => unexpected .statement

def statements : Course Block := do
  match ← next? with
  | some (.mark .rightBrace) => do
    skip
    return []
  | none => .fail .unterminatedBlock
  | some _ => do
    let s ← statement
    return s :: (← read .statements)

def program : Course Program := do
  let root ← block
  expectEnd
  return ⟨root⟩

end Course

def Part.course : (part : Part) → Course part.Answer
  | .expression => Course.expression
  | .moreArguments => Course.moreItems (Course.read .expression) (Course.read .moreArguments)
  | .moreNames => Course.moreItems Course.identifier (Course.read .moreNames)
  | .statements => Course.statements
  | .cases => Course.cases

def Fragment.course : FragmentKind → Course Fragment
  | .expression => return .expression (← Course.read .expression)
  | .block => return .block (← Course.block)

/-- In front of the tokens `taken ++ rest`, the course comes to an end and has taken the tokens `taken`
then. The end of the text cannot be taken, and a token behind the next one is looked at only where the
next one is taken afterwards. -/
inductive Course.Goes : {α : Type} → Course α → (taken rest : List Token) → Except Fault α → Prop
  | done {α : Type} {a : α} {rest : List Token} : Goes (.done a) [] rest (.ok a)
  | fail {α : Type} {fault : Fault} {rest : List Token} :
      Goes (.fail fault : Course α) [] rest (.error fault)
  | peek {α : Type} {k : Option Token → Course α} {taken rest : List Token} {v : Except Fault α}
      (h : Goes (k (taken ++ rest).head?) taken rest v) : Goes (.peek k) taken rest v
  | peekSecond {α : Type} {k : Option Token → Course α} {t : Token} {taken rest : List Token}
      {v : Except Fault α} (h : Goes (k (taken ++ rest).head?) (t :: taken) rest v) :
      Goes (.peekSecond k) (t :: taken) rest v
  | advance {α : Type} {k : Course α} {t : Token} {taken rest : List Token} {v : Except Fault α}
      (h : Goes k taken rest v) : Goes (.advance k) (t :: taken) rest v
  | ask {α : Type} {part : Part} {k : part.Answer → Course α} {a : part.Answer}
      {taken taken' rest : List Token} {v : Except Fault α}
      (hpart : Goes part.course taken (taken' ++ rest) (.ok a)) (hk : Goes (k a) taken' rest v) :
      Goes (.ask part k) (taken ++ taken') rest v
  | askError {α : Type} {part : Part} {k : part.Answer → Course α} {fault : Fault}
      {taken rest : List Token} (hpart : Goes part.course taken rest (.error fault)) :
      Goes (.ask part k) taken rest (.error fault)

namespace Course.Goes

variable {α β : Type} {c : Course α} {taken taken' rest rest' : List Token}

theorem unique {v v' : Except Fault α} (h : c.Goes taken rest v) (h' : c.Goes taken' rest' v')
    (heq : taken ++ rest = taken' ++ rest') : taken = taken' ∧ v = v' := by
  induction h generalizing taken' rest' with
  | done | fail =>
      cases h'
      exact ⟨rfl, rfl⟩
  | peek _ ih =>
      cases h' with
      | peek h' =>
          rw [← heq] at h'
          exact ih h' heq
  | peekSecond _ ih =>
      cases h' with
      | peekSecond h' =>
          have htail := (List.cons.inj heq).2
          simp only [List.append_eq] at htail
          rw [← htail] at h'
          exact ih h' heq
  | advance _ ih =>
      cases h' with
      | advance h' =>
          obtain ⟨rfl, htail⟩ := List.cons.inj heq
          obtain ⟨rfl, rfl⟩ := ih h' htail
          exact ⟨rfl, rfl⟩
  | ask _ _ ihpart ih =>
      rw [List.append_assoc] at heq
      cases h' with
      | ask hpart' hk' =>
          rw [List.append_assoc] at heq
          obtain ⟨rfl, ha⟩ := ihpart hpart' heq
          cases ha
          obtain ⟨rfl, rfl⟩ := ih hk' (List.append_cancel_left heq)
          exact ⟨rfl, rfl⟩
      | askError hpart' => exact nomatch (ihpart hpart' heq).2
  | askError _ ihpart =>
      cases h' with
      | ask hpart' _ =>
          rw [List.append_assoc] at heq
          exact nomatch (ihpart hpart' heq).2
      | askError hpart' =>
          obtain ⟨rfl, hfault⟩ := ihpart hpart' heq
          cases hfault
          exact ⟨rfl, rfl⟩

/-- Of what is left, no more is known than the first token. -/
theorem congr_rest {v : Except Fault α} (h : c.Goes taken rest v) (hhead : rest.head? = rest'.head?) :
    c.Goes taken rest' v := by
  have happend {ts us us' : List Token} (h : us.head? = us'.head?) :
      (ts ++ us).head? = (ts ++ us').head? := by
    rw [List.head?_append, List.head?_append, h]
  induction h generalizing rest' with
  | done => exact .done
  | fail => exact .fail
  | peek _ ih =>
      have h := ih hhead
      rw [happend hhead] at h
      exact .peek h
  | peekSecond _ ih =>
      have h := ih hhead
      rw [happend hhead] at h
      exact .peekSecond h
  | advance _ ih => exact .advance (ih hhead)
  | ask _ _ ihpart ih => exact .ask (ihpart (happend hhead)) (ih hhead)
  | askError _ ihpart => exact .askError (ihpart hhead)

theorem bind_ok {k : α → Course β} {a : α} {v : Except Fault β}
    (h : c.Goes taken (taken' ++ rest) (.ok a)) (hk : (k a).Goes taken' rest v) :
    (c >>= k).Goes (taken ++ taken') rest v := by
  generalize hrest : taken' ++ rest = us at h
  generalize hend : Except.ok a = w at h
  induction h with
  | done =>
      cases hend
      exact hk
  | fail => cases hend
  | peek _ ih =>
      have h := ih hk hrest hend
      rw [← hrest, ← List.append_assoc] at h
      exact .peek h
  | peekSecond _ ih =>
      have h := ih hk hrest hend
      rw [← hrest, ← List.append_assoc] at h
      exact .peekSecond h
  | advance _ ih => exact .advance (ih hk hrest hend)
  | ask hpart _ _ ih =>
      subst hrest
      rw [List.append_assoc]
      refine .ask ?_ (ih hk rfl hend)
      rwa [List.append_assoc]
  | askError => cases hend

theorem bind_error {fault : Fault} (h : c.Goes taken rest (.error fault)) (k : α → Course β) :
    (c >>= k).Goes taken rest (.error fault) := by
  generalize hend : Except.error fault = v at h
  induction h with
  | done => cases hend
  | fail =>
      cases hend
      exact .fail
  | peek _ ih => exact .peek (ih k hend)
  | peekSecond _ ih => exact .peekSecond (ih k hend)
  | advance _ ih => exact .advance (ih k hend)
  | ask hpart _ _ ih => exact .ask hpart (ih k hend)
  | askError hpart =>
      cases hend
      exact .askError hpart

theorem read {part : Part} {v : Except Fault part.Answer} (h : part.course.Goes taken rest v) :
    (Course.read part).Goes taken rest v := by
  cases v with
  | ok a =>
      rw [← List.append_nil taken]
      exact .ask h .done
  | error fault => exact .askError h

theorem of_ask {part : Part} {k : part.Answer → Course α} {v : Except Fault α}
    (h : (Course.ask part k).Goes taken rest v) :
    ∃ ts us w, taken = ts ++ us ∧ part.course.Goes ts (us ++ rest) w := by
  cases h with
  | ask hpart _ => exact ⟨_, _, _, rfl, hpart⟩
  | askError hpart => exact ⟨_, [], _, (List.append_nil _).symm, hpart⟩

end Course.Goes

end YulPruner
