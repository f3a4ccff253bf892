import YulPruner.Execution.Machine

namespace YulPruner

inductive Builtin where
  | add
  | sub
  | mul
  | div
  | mod
  | lt
  | gt
  | eq
  | isZero
  | and
  | or
  | not
  | load
  | store
  | log
  | revert
deriving DecidableEq, Repr

def Builtin.table : List (Name × Builtin) :=
  [("add", .add), ("sub", .sub), ("mul", .mul), ("div", .div), ("mod", .mod), ("lt", .lt),
   ("gt", .gt), ("eq", .eq), ("iszero", .isZero), ("and", .and), ("or", .or), ("not", .not),
   ("sload", .load), ("sstore", .store), ("log", .log), ("revert", .revert)]

def truth (b : Bool) : Word := if b then 1 else 0

/-- What a builtin does with its arguments, if it takes as many. Division by zero gives zero, and
so does its remainder. -/
def Builtin.act? : Builtin → List Word → Option (Exec (List Word))
  | .add, [a, b] => some (pure [a + b])
  | .sub, [a, b] => some (pure [a - b])
  | .mul, [a, b] => some (pure [a * b])
  | .div, [a, b] => some (pure [if b = 0 then 0 else a / b])
  | .mod, [a, b] => some (pure [if b = 0 then 0 else a % b])
  | .lt, [a, b] => some (pure [truth (a < b)])
  | .gt, [a, b] => some (pure [truth (b < a)])
  | .eq, [a, b] => some (pure [truth (a = b)])
  | .isZero, [a] => some (pure [truth (a = 0)])
  | .and, [a, b] => some (pure [a &&& b])
  | .or, [a, b] => some (pure [a ||| b])
  | .not, [a] => some (pure [~~~a])
  | .load, [slot] => some do return [(← get).storage.getD slot 0]
  | .store, [slot, value] => some do
    modify fun m => { m with storage := m.storage.insert slot value }
    Exec.emit (.store slot value)
    return []
  | .log, values => some do
    Exec.emit (.log values)
    return []
  | .revert, [offset, size] => some do
    Exec.emit (.revert offset size)
    throw .reverted
  | _, _ => none

def callBuiltin (name : Name) (arguments : List Word) : Exec (List Word) :=
  match (Builtin.table.lookup name).bind (·.act? arguments) with
  | some act => act
  | none => Exec.fail (.unknownFunction name arguments.length)

end YulPruner
