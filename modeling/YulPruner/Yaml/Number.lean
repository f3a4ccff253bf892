import YulPruner.Decimal
import YulPruner.Text.Basic

namespace YulPruner.Yaml

def digits? (radix : Nat) (digits : List Char) : Option Nat :=
  if digits ≠ [] ∧ digits.all fun c => isHexDigit c && hexDigitValue c < radix then
    some (digits.foldl (fun acc c => radix * acc + hexDigitValue c) 0)
  else none

/-- A number without a sign. Behind a leading zero there are either no digits, or a letter for the
radix and digits. -/
def magnitude? : List Char → Option Nat
  | '0' :: 'x' :: digits => digits? 16 digits
  | '0' :: 'o' :: digits => digits? 8 digits
  | '0' :: 'b' :: digits => digits? 2 digits
  | ['0'] => some 0
  | '0' :: _ => none
  | digits => digits? 10 digits

def integer? (text : List Char) : Option Int :=
  match text with
  | '-' :: digits => ((magnitude? digits).filter (· ≤ 1 <<< 127)).map fun n => -n
  | '+' :: digits => ((magnitude? digits).filter (· < 1 <<< 128)).map fun n => n
  | digits => ((magnitude? digits).filter (· < 1 <<< 128)).map fun n => n

inductive Floating where
  | notANumber
  | infinite (negative : Bool)
  | finite (negative : Bool) (magnitude : Binary64)
deriving DecidableEq, Repr

namespace Floating

def sign (negative : Bool) : String := if negative then "-" else ""

def text : Floating → String
  | .notANumber => "NaN"
  | .infinite negative => sign negative ++ "inf"
  | .finite negative x => sign negative ++ String.ofList x.shortest.positional

end Floating

def exponent? : List Char → Option Int
  | [] => some 0
  | c :: cs =>
    if c = 'e' ∨ c = 'E' then
      match cs with
      | '-' :: digits => (digits? 10 digits).map fun n => -Int.ofNat n
      | '+' :: digits => (digits? 10 digits).map Int.ofNat
      | digits => (digits? 10 digits).map Int.ofNat
    else none

/-- A decimal number, with digits on at least one side of the point, or without a point. -/
def decimal? (text : List Char) : Option Decimal :=
  let whole := text.takeWhile Char.isDigit
  let rest := text.dropWhile Char.isDigit
  let pointed := rest.head? == some '.'
  let fraction := if pointed then rest.tail.takeWhile Char.isDigit else []
  let rest := if pointed then rest.tail.dropWhile Char.isDigit else rest
  match digits? 10 (whole ++ fraction), exponent? rest with
  | some digits, some exponent => some ⟨digits, exponent - Int.ofNat fraction.length⟩
  | _, _ => none

def hasLeadingZero : List Char → Bool
  | '0' :: digits => !digits.isEmpty && digits.all Char.isDigit
  | _ => false

/-- A floating point number behind its sign. A number too great for the format is none. -/
def floatingBehind? (negative : Bool) (text : List Char) : Option Floating :=
  if hasLeadingZero text then none
  else if text ∈ [".inf", ".Inf", ".INF"].map String.toList then some (.infinite negative)
  else (decimal? text).bind fun d => (Binary64.ofDecimal? d).map (.finite negative ·)

def floating? (text : List Char) : Option Floating :=
  if text ∈ [".nan", ".NaN", ".NAN"].map String.toList then some .notANumber
  else match text with
    | '-' :: rest => floatingBehind? true rest
    | '+' :: rest => floatingBehind? false rest
    | rest => floatingBehind? false rest

end YulPruner.Yaml
