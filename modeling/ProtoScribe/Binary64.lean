/-!
# Binary floating-point numbers by their patterns

A double-precision number is kept as its 64-bit pattern, so that equality of data is equality of
patterns and every operation is exact arithmetic on naturals.

* `Format` describes a binary interchange format. A pattern without its sign bit is a natural
  number; the finite patterns count the representable magnitudes upwards, so rounding is one
  division (`Format.nearest`) and neighbours are neighbouring naturals.
* `Binary64` adds the sign and the special values, the conversions to and from integers, and the
  narrowing to and widening from single precision.
-/

namespace ProtoScribe

/-- Powers are those of the core library, also where another library brings its own. This is so in this
namespace only, where there is an instance of the class. -/
class CorePowers : Prop

scoped instance instCorePowers : CorePowers := ⟨⟩

@[default_instance 20000]
instance (priority := 20000) instPow {α : Type} [NatPow α] [CorePowers] : Pow α Nat := instPowNat

/-- The quotient `a / b` rounded to the nearest natural, a half going to the even neighbour. -/
def roundHalfEven (a b : Nat) : Nat :=
  let q := a / b
  let r := a % b
  if 2 * r > b ∨ (2 * r = b ∧ q % 2 = 1) then q + 1 else q

/-- A binary interchange format: `fractionBits` stored bits of the significand, `exponentBits` bits
of exponent, and `2 ^ (-leastScale)` as the smallest positive value. -/
structure Format where
  fractionBits : Nat
  exponentBits : Nat
  leastScale : Nat
deriving DecidableEq, Repr

namespace Format

def binary64 : Format := ⟨52, 11, 1074⟩

def binary32 : Format := ⟨23, 8, 149⟩

/-- The pattern of infinity; every smaller pattern is finite, every larger one is not a number. -/
def infinity (f : Format) : Nat := (2 ^ f.exponentBits - 1) * 2 ^ f.fractionBits

/-- The significand and the binary scale of a finite pattern, counted from the smallest positive
value: the pattern stands for `significand * 2 ^ scale` such units. -/
def decode (f : Format) (pattern : Nat) : Nat × Nat :=
  let exponent := pattern / 2 ^ f.fractionBits
  let fraction := pattern % 2 ^ f.fractionBits
  if exponent = 0 then (fraction, 0) else (fraction + 2 ^ f.fractionBits, exponent - 1)

/-- The value of a finite pattern in units of the smallest positive value. -/
def units (f : Format) (pattern : Nat) : Nat :=
  let (significand, scale) := f.decode pattern
  significand * 2 ^ scale

/-- The pattern nearest to `num / den`, ties to the even pattern; infinity from the first value
that would need a larger exponent. -/
def nearest (f : Format) (num den : Nat) : Nat :=
  let scaled := num * 2 ^ f.leastScale
  let scale := Nat.log2 (scaled / den) - f.fractionBits
  min (scale * 2 ^ f.fractionBits + roundHalfEven scaled (den * 2 ^ scale)) f.infinity

end Format

structure Binary64 where
  bits : UInt64
deriving DecidableEq, Inhabited, Repr

namespace Binary64

def ofPattern (negative : Bool) (pattern : Nat) : Binary64 :=
  ⟨UInt64.ofNat (pattern + if negative then 2 ^ 63 else 0)⟩

def negative (x : Binary64) : Bool := 2 ^ 63 ≤ x.bits.toNat

/-- The bits below the sign. -/
def pattern (x : Binary64) : Nat := x.bits.toNat % 2 ^ 63

def zero : Binary64 := ofPattern false 0

def infinity (negative : Bool) : Binary64 := ofPattern negative Format.binary64.infinity

def nan (negative : Bool) : Binary64 := ofPattern negative (Format.binary64.infinity + 2 ^ 51)

def isNaN (x : Binary64) : Bool := Format.binary64.infinity < x.pattern

def isInfinite (x : Binary64) : Bool := x.pattern == Format.binary64.infinity

def isZero (x : Binary64) : Bool := x.pattern == 0

/-- Numeric equality: a NaN differs from everything, the two zeros are equal. -/
def equals (x y : Binary64) : Bool :=
  !x.isNaN && !y.isNaN && (x.bits == y.bits || (x.isZero && y.isZero))

/-- The integer part, towards zero; none for infinities and NaN. -/
def truncate? (x : Binary64) : Option Int :=
  if Format.binary64.infinity ≤ x.pattern then none
  else
    let whole : Nat := Format.binary64.units x.pattern / 2 ^ Format.binary64.leastScale
    some (if x.negative then -(whole : Int) else whole)

def equalsInt (x : Binary64) (n : Int) : Bool :=
  x.pattern < Format.binary64.infinity &&
    Format.binary64.units x.pattern == n.natAbs * 2 ^ Format.binary64.leastScale &&
    (x.negative == decide (n < 0) || n == 0)

/-- The nearest number to an integer; none when it rounds past the largest finite one. -/
def ofInt? (n : Int) : Option Binary64 :=
  let pattern := Format.binary64.nearest n.natAbs 1
  if pattern < Format.binary64.infinity then some (ofPattern (n < 0) pattern) else none

/-! ### Single precision -/

/-- The single-precision pattern nearest to `x`; none when a finite number rounds to infinity. A
NaN keeps the upper bits of its payload. -/
def narrow? (x : Binary64) : Option UInt32 :=
  let sign := if x.negative then 2 ^ 31 else 0
  if x.isNaN then
    let payload := x.pattern % 2 ^ 51 / 2 ^ 29
    some (UInt32.ofNat (sign + Format.binary32.infinity + 2 ^ 22 + payload))
  else if x.isInfinite then
    some (UInt32.ofNat (sign + Format.binary32.infinity))
  else
    let pattern := Format.binary32.nearest (Format.binary64.units x.pattern)
      (2 ^ Format.binary64.leastScale)
    if pattern < Format.binary32.infinity then some (UInt32.ofNat (sign + pattern)) else none

/-- The number with the given single-precision pattern. -/
def widen (bits : UInt32) : Binary64 :=
  let negative : Bool := 2 ^ 31 ≤ bits.toNat
  let pattern := bits.toNat % 2 ^ 31
  if Format.binary32.infinity < pattern then
    ofPattern negative (Format.binary64.infinity + 2 ^ 51 + pattern % 2 ^ 22 * 2 ^ 29)
  else if pattern = Format.binary32.infinity then infinity negative
  else ofPattern negative
    (Format.binary64.nearest (Format.binary32.units pattern) (2 ^ Format.binary32.leastScale))

end Binary64

end ProtoScribe
