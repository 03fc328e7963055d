import ProtoScribe.Value.Conversion
import ProtoScribe.Wire.Varint

/-!
# Codings of scalars

A coding is one way to put a scalar on the wire. It has a name, a wire type that announces it in the
key of a field, and it may or may not be packed, that is, put many times into one length-delimited
field. Fixed-width codings turn a value into bytes on their own (`fixedBytes`, `floatBytes`,
`doubleBytes`).
-/

namespace ProtoScribe.Wire

inductive Coding
  | varint
  | svarint
  | boolean
  | fixed32
  | sfixed32
  | fixed64
  | sfixed64
  | float
  | double
  | bytes
  | string
deriving DecidableEq, Repr

namespace Coding

def all : List Coding :=
  [.varint, .svarint, .boolean, .fixed32, .sfixed32, .fixed64, .sfixed64, .float, .double, .bytes,
    .string]

def name : Coding → String
  | .varint => "varint"
  | .svarint => "svarint"
  | .boolean => "boolean"
  | .fixed32 => "fixed32"
  | .sfixed32 => "sfixed32"
  | .fixed64 => "fixed64"
  | .sfixed64 => "sfixed64"
  | .float => "float"
  | .double => "double"
  | .bytes => "bytes"
  | .string => "string"

/-- The wire type of a coding: 0 varint, 1 eight bytes, 2 length-delimited, 5 four bytes. -/
def wireType : Coding → Nat
  | .varint | .svarint | .boolean => 0
  | .fixed64 | .sfixed64 | .double => 1
  | .bytes | .string => 2
  | .fixed32 | .sfixed32 | .float => 5

/-- Whether many values may share one length-delimited field. -/
def packable : Coding → Bool
  | .bytes | .string => false
  | _ => true

end Coding

/-- The bytes of an integer in a fixed-width format of `size` bytes. -/
def fixedBytes (size : Nat) (signed : Bool) (v : Value) : Except Fault (List UInt8) :=
  match v.strictInteger? with
  | none => .error .unpackable
  | some n =>
    let low : Int := if signed then -(2 ^ (8 * size - 1) : Nat) else 0
    let high : Int := if signed then (2 ^ (8 * size - 1) : Nat) else (2 ^ (8 * size) : Nat)
    if low ≤ n ∧ n < high then .ok (littleEndian size (n % (2 ^ (8 * size) : Nat)).toNat)
    else .error .unpackable

/-- The double-precision number that a number denotes; an integer is rounded to the nearest. -/
def toBinary64 (v : Value) : Except Fault Binary64 :=
  match v with
  | .float x => .ok x
  | _ => match v.strictInteger?.bind Binary64.ofInt? with
    | some x => .ok x
    | none => .error .unpackable

def doubleBytes (v : Value) : Except Fault (List UInt8) :=
  (toBinary64 v).map fun x => littleEndian 8 x.bits.toNat

/-- The four bytes of a number rounded to single precision. A number that rounds past the largest
finite one overflows if it was given in double precision, and does not fit if given as an integer. -/
def floatBytes (v : Value) : Except Fault (List UInt8) :=
  match toBinary64 v with
  | .error e => .error e
  | .ok x => match x.narrow? with
    | some bits => .ok (littleEndian 4 bits.toNat)
    | none => .error (match v with | .float _ => .overflow | _ => .unpackable)

end ProtoScribe.Wire
