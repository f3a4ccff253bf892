namespace YulPruner

/-- Variables, parameters, return variables and functions share one space of names. -/
abbrev Name := String

abbrev Word := BitVec 128

inductive Literal where
  | number (value : Word)
  | string (value : String)
  | bool (value : Bool)
deriving DecidableEq, Repr

/-- A string counts by its first sixteen bytes, the first of them most significant. -/
def Literal.value : Literal → Word
  | .number n => n
  | .bool b => if b then 1 else 0
  | .string s =>
    (s.toUTF8.toList.take 16).foldl (fun acc byte => acc <<< 8 ||| byte.toBitVec.setWidth 128) 0

inductive Expr where
  | var (name : Name)
  | literal (value : Literal)
  | call (callee : Name) (arguments : List Expr)

structure FunctionOf (β : Type) where
  name : Name
  parameters : List Name
  returns : List Name
  body : β
deriving DecidableEq

/-- An arm of a switch with a body of type `β`. The default arm has no value. -/
structure CaseOf (β : Type) where
  value : Option Literal
  body : β
deriving DecidableEq

inductive Jump where
  | breakLoop
  | continueLoop
  | leave
deriving DecidableEq, Repr

inductive Stmt where
  | expression (value : Expr)
  | assignment (targets : List Name) (value : Expr)
  | declaration (names : List Name) (value : Option Expr)
  | function (definition : FunctionOf (List Stmt))
  | conditional (condition : Expr) (body : List Stmt)
  | switch (scrutinee : Expr) (cases : List (CaseOf (List Stmt)))
  | loop (pre : List Stmt) (condition : Expr) (post body : List Stmt)
  | jump (kind : Jump)
  | block (body : List Stmt)

abbrev Block := List Stmt

abbrev Function := FunctionOf Block

abbrev Case := CaseOf Block

structure Program where
  root : Block

def Program.functions (p : Program) : List Function :=
  p.root.filterMap fun
    | .function f => some f
    | _ => none

/-- The first definition of `name` at the top level. -/
def Program.function? (p : Program) (name : Name) : Option Function :=
  p.functions.find? (·.name == name)

end YulPruner
