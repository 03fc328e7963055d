import ProtoScribe.Text.Printable

/-!
# Quoted text

A text is quoted with apostrophes, or with double quotes when it holds an apostrophe and no double
quote. The quote in use and the backslash are escaped, line breaks and tabulators have short escapes,
and every other character that is not printable is written by its code point.
-/

namespace ProtoScribe.Text

/-- The lowercase hexadecimal digits of `n`, padded with zeros to `width`. -/
def hex (width n : Nat) : List Char :=
  let digits := Nat.toDigits 16 n
  List.replicate (width - digits.length) '0' ++ digits

def quoteFor (cs : List Char) : Char :=
  if cs.contains '\'' && !cs.contains '"' then '"' else '\''

/-- A character by its code point, in the shortest of three widths. -/
def byCodePoint (n : Nat) : List Char :=
  if n < 0x100 then '\\' :: 'x' :: hex 2 n
  else if n < 0x10000 then '\\' :: 'u' :: hex 4 n
  else '\\' :: 'U' :: hex 8 n

/-- A character as it stands between the quotes. -/
def escape (quote c : Char) : List Char :=
  if c = quote ∨ c = '\\' then ['\\', c]
  else if c = '\n' then ['\\', 'n']
  else if c = '\r' then ['\\', 'r']
  else if c = '\t' then ['\\', 't']
  else if isPrintable c then [c]
  else byCodePoint c.toNat

def quoted (s : String) : String :=
  let quote := quoteFor s.toList
  String.ofList (quote :: s.toList.flatMap (escape quote) ++ [quote])

/-- The quoted form of a byte string: as for text, with every byte above ASCII by its number. -/
def quotedBytes (bytes : List UInt8) : String :=
  let cs := bytes.map fun b => Char.ofNat b.toNat
  let quote := quoteFor cs
  let escaped := cs.flatMap fun c => if c.toNat < 128 then escape quote c else byCodePoint c.toNat
  String.ofList ('b' :: quote :: escaped ++ [quote])

end ProtoScribe.Text
