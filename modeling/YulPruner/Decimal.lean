namespace YulPruner

structure Decimal where
  digits : Nat
  exponent : Int
deriving DecidableEq, Repr

namespace Decimal

/-- The number is less than ten to this power. Unless it is zero, it is no less than ten to the
power before. -/
def magnitude (d : Decimal) : Int := Int.ofNat (Nat.toDigits 10 d.digits).length + d.exponent

def positional (d : Decimal) : List Char :=
  let digits := Nat.toDigits 10 d.digits
  if 0 ≤ d.exponent then digits ++ List.replicate d.exponent.toNat '0' ++ ['.', '0']
  else
    let places := (-d.exponent).toNat
    let padded := List.replicate (places + 1 - digits.length) '0' ++ digits
    let whole := padded.length - places
    padded.take whole ++ '.' :: padded.drop whole

example : positional ⟨25, -4⟩ = "0.0025".toList := by decide

example : positional ⟨25, 2⟩ = "2500.0".toList := by decide

end Decimal

/-- A finite number without a sign, as a multiple of `2 ^ -1074`, the least number of the format. -/
structure Binary64 where
  units : Nat
deriving DecidableEq, Repr

namespace Binary64

/-- How many units lie between neighbours near so many units: 53 binary digits are kept. -/
def gap (units : Nat) : Nat := 1 <<< (units.log2 - 52)

/-- A quotient of units, rounded to the nearest number of the format. Of two that are equally near
it is the one with an even last digit. -/
def nearest (numerator denominator : Nat) : Binary64 :=
  let gap := gap (numerator / denominator)
  let width := denominator * gap
  let below := numerator / width
  let remainder := 2 * (numerator % width)
  let up := width < remainder || (width == remainder && below % 2 == 1)
  ⟨(if up then below + 1 else below) * gap⟩

def ofDecimal? (d : Decimal) : Option Binary64 :=
  if d.digits = 0 ∨ d.magnitude < -330 then some ⟨0⟩
  else if 310 < d.magnitude then none
  else
    let numerator := (d.digits * Nat.pow 10 d.exponent.toNat) <<< 1074
    let x := nearest numerator (Nat.pow 10 (-d.exponent).toNat)
    if x.units < 1 <<< 2098 then some x else none

/-- The multiple of `10 ^ exponent` nearest to `x`, if any lies among the numbers that round to `x`.
These reach half way to the neighbours of `x`, and include the ends if the last digit of `x` is
even. Of two that are equally near it is the greater one. -/
def decimalAt? (x : Binary64) (exponent : Int) : Option Decimal :=
  let gap := gap x.units
  let gapBelow := if 1 < gap ∧ x.units = gap <<< 52 then gap else 2 * gap
  let least := 4 * x.units - gapBelow
  let greatest := 4 * x.units + 2 * gap
  let even := x.units / gap % 2 == 0
  let scale := Nat.pow 10 (-exponent).toNat
  let width := Nat.pow 10 exponent.toNat <<< 1076
  let rounds (n : Nat) : Bool :=
    if even then least * scale ≤ n * width && n * width ≤ greatest * scale
    else least * scale < n * width && n * width < greatest * scale
  let below := 4 * x.units * scale / width
  let remainder := 2 * (4 * x.units * scale % width)
  if rounds (below + 1) && (!rounds below || width ≤ remainder) then some ⟨below + 1, exponent⟩
  else if rounds below then some ⟨below, exponent⟩
  else none

/-- The shortest decimal that rounds to the number, and of those the nearest one. -/
def shortest (x : Binary64) : Decimal :=
  if x.units = 0 then ⟨0, 0⟩
  else ((List.range 633).findSome? fun n => x.decimalAt? (308 - Int.ofNat n)).getD ⟨0, 0⟩

/-- What has too many digits for the format loses the last of them. -/
example : (ofDecimal? ⟨9007199254740993, 0⟩).map shortest = some ⟨9007199254740992, 0⟩ := by
  decide +kernel

/-- The least number of the format has one digit. -/
example : shortest ⟨1⟩ = ⟨5, -324⟩ := by decide +kernel

end Binary64

end YulPruner
