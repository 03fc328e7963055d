import ProtoScribe.Decimal.Reading

/-!
# Numerals

Text that denotes a number. A numeral may stand between blanks, its digits may be decimal digits of
any script, and single underscores may separate digits.

* `integer?` reads a whole number of at most `digitLimit` digits.
* `float?` reads a decimal with optional point and exponent, or a spelled infinity or NaN.
-/

namespace ProtoScribe.Text

/-- Code points above ASCII that are white space. -/
def wideBlanks : List Nat := [
  0x85, 0xa0, 0x1680, 0x2000, 0x2001, 0x2002, 0x2003, 0x2004, 0x2005, 0x2006, 0x2007, 0x2008,
  0x2009, 0x200a, 0x2028, 0x2029, 0x202f, 0x205f, 0x3000]

/-- Whether a character may surround a numeral: the space, tabulators, line and page breaks, and
white space above ASCII. -/
def isBlank (c : Char) : Bool :=
  let n := c.toNat
  n == 32 || (9 ≤ n && n ≤ 13) || wideBlanks.contains n

/-- The code point of the digit zero in every script that has decimal digits; the other nine follow
it in order. -/
def zeros : List Nat := [
  48, 1632, 1776, 1984, 2406, 2534, 2662, 2790, 2918, 3046, 3174, 3302, 3430, 3558, 3664, 3792,
  3872, 4160, 4240, 6112, 6160, 6470, 6608, 6784, 6800, 6992, 7088, 7232, 7248, 42528, 43216,
  43264, 43472, 43504, 43600, 44016, 65296, 66720, 68912, 69734, 69872, 69942, 70096, 70384,
  70736, 70864, 71248, 71360, 71472, 71904, 72016, 72784, 73040, 73120, 92768, 92864, 93008,
  120782, 120792, 120802, 120812, 120822, 123200, 123632, 125264, 130032]

def digit? (c : Char) : Option Nat :=
  zeros.findSome? fun z => if z ≤ c.toNat ∧ c.toNat < z + 10 then some (c.toNat - z) else none

def trimBlanks (cs : List Char) : List Char :=
  ((cs.dropWhile isBlank).reverse.dropWhile isBlank).reverse

/-- The digits of a text that consists of digits, with at most one underscore between two of them. -/
def digits? : List Char → Option (List Nat)
  | [] => none
  | [c] => (digit? c).map ([·])
  | c :: '_' :: rest => do return (← digit? c) :: (← digits? rest)
  | c :: rest => do return (← digit? c) :: (← digits? rest)

def valueOf (digits : List Nat) : Nat := digits.foldl (fun acc d => 10 * acc + d) 0

/-- Whole numbers have at most this many digits, leading zeros included. -/
def digitLimit : Nat := 4300

def sign : List Char → Bool × List Char
  | '-' :: rest => (true, rest)
  | '+' :: rest => (false, rest)
  | cs => (false, cs)

def integerOf? (cs : List Char) : Option Int :=
  let (negative, body) := sign (trimBlanks cs)
  match digits? body with
  | some digits =>
    if digits.length ≤ digitLimit then
      some (if negative then -(valueOf digits : Int) else valueOf digits)
    else none
  | none => none

def integer? (s : String) : Option Int := integerOf? s.toList

/-- The whole number that a text of ASCII bytes denotes. -/
def integerOfBytes? (bytes : List UInt8) : Option Int :=
  if bytes.all (· < 128) then integerOf? (bytes.map fun b => Char.ofNat b.toNat) else none

/-! ### Decimals -/

/-- Drops underscores, provided each stands between two digits; `after` tells whether the character
before was a digit. -/
def joinDigits? (after : Bool) : List Char → Option (List Char)
  | [] => some []
  | '_' :: c :: rest =>
    if after && c.isDigit then (joinDigits? true rest).map (c :: ·) else none
  | '_' :: [] => none
  | c :: rest => (joinDigits? c.isDigit rest).map (c :: ·)

/-- A decimal digit of any script as the ASCII digit, any other character as it is. -/
def plainDigit (c : Char) : Char :=
  match digit? c with
  | some d => Char.ofNat (48 + d)
  | none => c

/-- The exponent that a text denotes: nothing, or a letter `e`, a sign and digits. -/
def exponent? : List Char → Option Int
  | [] => some 0
  | e :: rest =>
    let (negative, body) := sign rest
    if (e == 'e' || e == 'E') && !body.isEmpty && body.all Char.isDigit then
      let size := valueOf (body.map fun c => c.toNat - 48)
      some (if negative then -(size : Int) else size)
    else none

/-- The number that decimal text behind a sign denotes. -/
def magnitude? (negative : Bool) (cs : List Char) : Option Binary64 :=
  match String.ofList (cs.map Char.toLower) with
  | "inf" | "infinity" => some (.infinity negative)
  | "nan" => some (.nan negative)
  | _ =>
    let whole := cs.takeWhile Char.isDigit
    let rest := cs.dropWhile Char.isDigit
    let (fraction, rest) := match rest with
      | '.' :: more => (more.takeWhile Char.isDigit, more.dropWhile Char.isDigit)
      | other => ([], other)
    let digits := whole ++ fraction
    if digits.isEmpty then none
    else (exponent? rest).map fun e =>
      Decimal.read negative (valueOf (digits.map fun c => c.toNat - 48)) digits.length
        (e - fraction.length)

/-- The double-precision number that a text denotes, correctly rounded. -/
def float? (s : String) : Option Binary64 := do
  let plain ← joinDigits? false ((trimBlanks s.toList).map plainDigit)
  let (negative, body) := sign plain
  magnitude? negative body

end ProtoScribe.Text
