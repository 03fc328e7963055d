import ProtoScribe.Decimal.Shortest

/-!
# The text of a number

Numbers are written with the fewest digits that read back. The point is placed positionally while
the leading digit stands between ten thousandths and ten to the sixteenth, and there is always at
least one digit after it; other numbers have an exponent of at least two digits with its sign.
-/

namespace ProtoScribe.Decimal

structure Layout where
  /-- Numbers whose leading digit stands below this power of ten have an exponent. -/
  lowest : Int
  /-- Numbers whose leading digit stands at this power of ten or above have an exponent. -/
  highest : Int
  /-- The least number of digits of an exponent. -/
  exponentDigits : Nat
  infinity : String
  nan : String

/-- The notation of every number this library writes. -/
def layout : Layout := ⟨-4, 16, 2, "inf", "nan"⟩

/-- The digits of `n`, padded on the left with zeros to `width`. -/
def padded (width n : Nat) : String :=
  let digits := toString n
  String.ofList (List.replicate (width - digits.length) '0') ++ digits

def Digits.write (l : Layout) (n : Digits) : String :=
  let digits := (toString n.digits).toList
  let leading : Int := n.exponent + digits.length - 1
  if l.lowest ≤ leading ∧ leading < l.highest then
    if leading < 0 then
      "0." ++ String.ofList (List.replicate (-leading - 1).toNat '0' ++ digits)
    else
      let whole := leading.toNat + 1
      let fraction := digits.drop whole
      let integer := digits.take whole ++ List.replicate (whole - digits.length) '0'
      String.ofList integer ++ "." ++ (if fraction.isEmpty then "0" else String.ofList fraction)
  else
    let fraction := digits.drop 1
    let mantissa := digits.take 1 ++ (if fraction.isEmpty then [] else '.' :: fraction)
    let sign := if leading < 0 then "-" else "+"
    String.ofList mantissa ++ "e" ++ sign ++ padded l.exponentDigits leading.natAbs

def write (x : Binary64) : String :=
  if x.isNaN then layout.nan
  else
    let sign := if x.negative then "-" else ""
    if x.isInfinite then sign ++ layout.infinity
    else if x.isZero then sign ++ "0.0"
    else sign ++ (shortest x.pattern).write layout

end ProtoScribe.Decimal
