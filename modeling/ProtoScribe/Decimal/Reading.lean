import ProtoScribe.Binary64

/-!
# Reading a decimal

A decimal `digits * 10 ^ exponent` is read as the nearest double-precision number, ties to even;
past the largest finite number it is infinity.
-/

namespace ProtoScribe.Decimal

/-- No finite double-precision number has a decimal exponent beyond this bound on either side. -/
def exponentBound : Int := 400

/-- The number nearest to `digits * 10 ^ exponent`, where `digits` is written with `count` digits, so
that it is less than `10 ^ count`. Exponents far out of range are settled without computing the
power. -/
def read (negative : Bool) (digits count : Nat) (exponent : Int) : Binary64 :=
  if digits = 0 then .ofPattern negative 0
  else if exponentBound < exponent then .infinity negative
  else if exponent + count < -exponentBound then .ofPattern negative 0
  else .ofPattern negative
    (Format.binary64.nearest (digits * 10 ^ exponent.toNat) (10 ^ (-exponent).toNat))

end ProtoScribe.Decimal
