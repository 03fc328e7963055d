import ProtoScribe.Binary64

/-!
# The fewest decimal digits that read back

A finite double-precision number is written with as few digits as still name it: a decimal names the
number when it lies between the midpoints to the two neighbours, the midpoints included when the
pattern is even. Of the decimals of that length the one nearest to the number is taken. All
comparisons are exact.
-/

namespace ProtoScribe.Decimal

/-- A positive decimal `digits * 10 ^ exponent`. -/
structure Digits where
  digits : Nat
  exponent : Int
deriving DecidableEq, Repr

def digitCount (n : Nat) : Nat := (Nat.toDigits 10 n).length

/-- The least `e` with `value < 10 ^ e`, for the value of a positive finite pattern. Scaling by
`10 ^ 400` makes the smallest positive number larger than one. -/
def magnitude (pattern : Nat) : Int :=
  (digitCount (Format.binary64.units pattern * 10 ^ 400 / 2 ^ Format.binary64.leastScale) : Int) - 400

/-- Twice a decimal on the scale of `bounds`: `(d, s)` such that `2 * digits * 10 ^ exponent` is
`d / s` units of the smallest positive number. -/
def doubled (n : Digits) : Nat × Nat :=
  (2 * n.digits * 10 ^ n.exponent.toNat * 2 ^ Format.binary64.leastScale, 10 ^ (-n.exponent).toNat)

/-- Whether the decimal reads back as the pattern. -/
def names (pattern : Nat) (n : Digits) : Bool :=
  let unit := Format.binary64.units
  let (d, s) := doubled n
  let low := (unit (pattern - 1) + unit pattern) * s
  let high := (unit pattern + unit (pattern + 1)) * s
  if pattern % 2 = 0 then low ≤ d && d ≤ high else low < d && d < high

/-- The distance of a decimal from the value of the pattern, in units scaled by its denominator. -/
def distance (pattern : Nat) (n : Digits) : Nat :=
  let (d, s) := doubled n
  let value := 2 * Format.binary64.units pattern * s
  if d ≤ value then value - d else d - value

/-- The decimal with `count` digits that names the pattern and is nearest to it, if there is one:
one of the two neighbours of the value on that decimal grid, the even one of two equally near. -/
def withDigits? (pattern : Nat) (count : Nat) : Option Digits :=
  let exponent := magnitude pattern - count
  let value := Format.binary64.units pattern
  let below : Nat := value * 10 ^ (-exponent).toNat /
    (2 ^ Format.binary64.leastScale * 10 ^ exponent.toNat)
  let lower : Digits := ⟨below, exponent⟩
  let upper : Digits := ⟨below + 1, exponent⟩
  match names pattern lower, names pattern upper with
  | true, true =>
    let toLower := distance pattern lower
    let toUpper := distance pattern upper
    some (if toLower < toUpper ∨ (toLower = toUpper ∧ below % 2 = 0) then lower else upper)
  | true, false => some lower
  | false, true => some upper
  | false, false => none

/-- Drops trailing zeros of the digits, at most `bound` of them. -/
def stripZeros : (bound : Nat) → Digits → Digits
  | 0, n => n
  | bound + 1, n => if n.digits % 10 = 0 then stripZeros bound ⟨n.digits / 10, n.exponent + 1⟩ else n

/-- The shortest decimal that reads back as a positive finite pattern; seventeen digits always do. -/
def shortest (pattern : Nat) : Digits :=
  let found := (List.range 17).findSome? fun k => withDigits? pattern (k + 1)
  stripZeros 17 (found.getD ⟨0, 0⟩)

end ProtoScribe.Decimal
