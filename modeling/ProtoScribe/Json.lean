import ProtoScribe.Text.Numeral
import ProtoScribe.Value

/-!
# JSON text

`Json.parse` reads a JSON text as a value. Whole numbers are unbounded but have at most
`Text.digitLimit` digits, `NaN` and the infinities are accepted, and a repeated key keeps its first
place and takes its last value. A malformed text is refused with the reason and the place, counted
in characters.

The reader works on the list of characters that are left. Its failures carry that list, so a place
is worked out once, at the end.
-/

namespace ProtoScribe.Json

inductive Reason
  | value
  | propertyName
  | colon
  | comma
  | unterminated
  | controlCharacter
  | escape
  | unicodeEscape
  | extraData
  | byteOrderMark
deriving DecidableEq, Repr

def Reason.text : Reason → String
  | .value => "Expecting value"
  | .propertyName => "Expecting property name enclosed in double quotes"
  | .colon => "Expecting ':' delimiter"
  | .comma => "Expecting ',' delimiter"
  | .unterminated => "Unterminated string starting at"
  | .controlCharacter => "Invalid control character at"
  | .escape => "Invalid \\escape"
  | .unicodeEscape => "Invalid \\uXXXX escape"
  | .extraData => "Extra data"
  | .byteOrderMark => "Unexpected UTF-8 BOM (decode using utf-8-sig)"

/-- Why reading failed: at a place, given by line, column (both from one) and offset (from zero), or
because a number has too many digits. -/
inductive Error
  | malformed (reason : Reason) (line column offset : Nat)
  | tooManyDigits
deriving DecidableEq, Repr

/-- A failure while reading: a reason and what was left at its place. -/
inductive Stop
  | at (reason : Reason) (rest : List Char)
  | tooManyDigits

abbrev Result (α : Type) := Except Stop (α × List Char)

/-! ### Blanks and text -/

def isBlank (c : Char) : Bool := c == ' ' || c == '\t' || c == '\n' || c == '\r'

def skip (cs : List Char) : List Char := cs.dropWhile isBlank

def hexDigit? (c : Char) : Option Nat :=
  if '0' ≤ c ∧ c ≤ '9' then some (c.toNat - 48)
  else if 'a' ≤ c ∧ c ≤ 'f' then some (c.toNat - 87)
  else if 'A' ≤ c ∧ c ≤ 'F' then some (c.toNat - 55)
  else none

def hexFour? (a b c d : Char) : Option Nat := do
  let a ← hexDigit? a
  let b ← hexDigit? b
  let c ← hexDigit? c
  let d ← hexDigit? d
  return ((a * 16 + b) * 16 + c) * 16 + d

def shortEscape? : Char → Option Char
  | '"' => some '"'
  | '\\' => some '\\'
  | '/' => some '/'
  | 'b' => some '\x08'
  | 'f' => some '\x0c'
  | 'n' => some '\n'
  | 'r' => some '\r'
  | 't' => some '\t'
  | _ => none

def isHighSurrogate (n : Nat) : Bool := 0xd800 ≤ n && n < 0xdc00

def isLowSurrogate (n : Nat) : Bool := 0xdc00 ≤ n && n < 0xe000

/-- The characters of a list of code units: a high and a low surrogate in a row are one character,
and half of a pair on its own, which no text can hold, becomes the replacement character. -/
def joinUnits : List Nat → List Char
  | high :: low :: rest =>
    if isHighSurrogate high && isLowSurrogate low then
      Char.ofNat (0x10000 + (high - 0xd800) * 0x400 + (low - 0xdc00)) :: joinUnits rest
    else if isHighSurrogate high || isLowSurrogate high then '\ufffd' :: joinUnits (low :: rest)
    else Char.ofNat high :: joinUnits (low :: rest)
  | [last] => [if isHighSurrogate last || isLowSurrogate last then '\ufffd' else Char.ofNat last]
  | [] => []

def consUnit (n : Nat) : Result (List Nat) → Result (List Nat)
  | .ok (units, rest) => .ok (n :: units, rest)
  | .error e => .error e

/-- The code units of a text after its opening quote; `opening` is what was left at that quote. The
four digits of an escape by number are never the end of a text. -/
def textBody (opening : List Char) : List Char → Result (List Nat)
  | [] => .error (.at .unterminated opening)
  | '"' :: rest => .ok ([], rest)
  | '\\' :: rest =>
    match rest with
    | [] => .error (.at .unterminated opening)
    | 'u' :: a :: b :: c :: d :: more =>
      match hexFour? a b c d, more with
      | some n, _ :: _ => consUnit n (textBody opening more)
      | _, _ => .error (.at .unicodeEscape rest)
    | c :: more =>
      match shortEscape? c with
      | some x => consUnit x.toNat (textBody opening more)
      | none =>
        if c = 'u' then .error (.at .unicodeEscape rest)
        else .error (.at .escape ('\\' :: rest))
  | c :: rest =>
    if c.toNat < 32 then .error (.at .controlCharacter (c :: rest))
    else consUnit c.toNat (textBody opening rest)

def text (opening rest : List Char) : Result String :=
  (textBody opening rest).map fun (units, rest) => (String.ofList (joinUnits units), rest)

/-! ### Numbers and words -/

/-- A fraction at the front of a text: a point and at least one digit, or nothing. -/
def fraction : List Char → List Char × List Char
  | '.' :: rest =>
    let digits := rest.takeWhile Char.isDigit
    if digits.isEmpty then ([], '.' :: rest) else ('.' :: digits, rest.dropWhile Char.isDigit)
  | cs => ([], cs)

/-- An exponent at the front of a text: a letter, a sign and at least one digit, or nothing. -/
def exponent (cs : List Char) : List Char × List Char :=
  match cs with
  | e :: rest =>
    let (mark, rest) : List Char × List Char := match rest with
      | '+' :: more => (['+'], more)
      | '-' :: more => (['-'], more)
      | other => ([], other)
    let digits := rest.takeWhile Char.isDigit
    if (e == 'e' || e == 'E') && !digits.isEmpty then
      (e :: mark ++ digits, rest.dropWhile Char.isDigit)
    else ([], cs)
  | [] => ([], [])

/-- The digits in front of a fraction: a lone zero, or digits that do not start with zero. -/
def integerDigits : List Char → List Char × List Char
  | '0' :: rest => (['0'], rest)
  | cs => (cs.takeWhile Char.isDigit, cs.dropWhile Char.isDigit)

def number (cs : List Char) : Result Value :=
  let (minus, body) : List Char × List Char := match cs with
    | '-' :: rest => (['-'], rest)
    | other => ([], other)
  let (digits, rest) := integerDigits body
  if digits.isEmpty then .error (.at .value cs)
  else
    let (point, rest) := fraction rest
    let (power, rest) := exponent rest
    if point.isEmpty && power.isEmpty then
      match Text.integerOf? (minus ++ digits) with
      | some n => .ok (.int n, rest)
      | none => .error .tooManyDigits
    else
      match Text.float? (String.ofList (minus ++ digits ++ point ++ power)) with
      | some x => .ok (.float x, rest)
      | none => .error (.at .value cs)

def words : List (String × Value) :=
  [("null", .none), ("true", .bool true), ("false", .bool false), ("NaN", .float (.nan false)),
    ("Infinity", .float (.infinity false)), ("-Infinity", .float (.infinity true))]

def atom (cs : List Char) : Result Value :=
  match words.find? fun (word, _) => word.toList.isPrefixOf cs with
  | some (word, v) => .ok (v, cs.drop word.length)
  | none => number cs

/-! ### Values -/

mutual

/-- A value at the front of a text. Every nested value costs at most two of the fuel and at least
one character. -/
def value : Nat → List Char → Except Stop (Value × List Char)
  | 0, cs => .error (.at .value cs)
  | fuel + 1, cs =>
    match cs with
    | '"' :: rest => (text cs rest).map fun (s, rest) => (.str s, rest)
    | '\x7b' :: rest =>
      match skip rest with
      | '\x7d' :: rest => .ok (.dict [], rest)
      | rest => members fuel [] rest
    | '[' :: rest =>
      match skip rest with
      | ']' :: rest => .ok (.list [], rest)
      | rest => elements fuel [] rest
    | _ => atom cs

/-- The elements of a list up to its closing bracket; `done` holds those before, last first. -/
def elements : Nat → List Value → List Char → Except Stop (Value × List Char)
  | 0, _, cs => .error (.at .value cs)
  | fuel + 1, done, cs => do
    let (v, rest) ← value fuel cs
    match skip rest with
    | ']' :: rest => .ok (.list (done.reverse ++ [v]), rest)
    | ',' :: rest => elements fuel (v :: done) (skip rest)
    | rest => .error (.at .comma rest)

/-- The members of an object up to its closing brace; `done` holds those before. -/
def members : Nat → List (Value × Value) → List Char → Except Stop (Value × List Char)
  | 0, _, cs => .error (.at .value cs)
  | fuel + 1, done, cs =>
    match cs with
    | '"' :: rest => do
      let (key, rest) ← text cs rest
      match skip rest with
      | ':' :: rest =>
        let (v, rest) ← value fuel (skip rest)
        let done := Value.put done (.str key) v
        match skip rest with
        | '\x7d' :: rest => .ok (.dict done, rest)
        | ',' :: rest => members fuel done (skip rest)
        | rest => .error (.at .comma rest)
      | rest => .error (.at .colon rest)
    | _ => .error (.at .propertyName cs)

end

/-- A failure at the place where `rest` was left of the whole text. -/
def Stop.locate (text : List Char) : Stop → Error
  | .at reason rest =>
    let offset := text.length - rest.length
    let before := text.take offset
    let column := (before.reverse.takeWhile (· != '\n')).length + 1
    .malformed reason (before.count '\n' + 1) column offset
  | .tooManyDigits => .tooManyDigits

def document (text : List Char) : Except Stop Value :=
  match text with
  | '\ufeff' :: _ => .error (.at .byteOrderMark text)
  | _ => do
    let (v, rest) ← value (2 * text.length + 2) (skip text)
    match skip rest with
    | [] => .ok v
    | rest => .error (.at .extraData rest)

def parse (text : String) : Except Error Value :=
  match document text.toList with
  | .ok v => .ok v
  | .error stop => .error (stop.locate text.toList)

end ProtoScribe.Json
