import ProtoScribe.Cursor.Method

/-!
# Scalar types

The keywords that name the built-in types of fields, and the coding each of them has on the wire.
-/

namespace ProtoScribe

inductive Scalar
  | double
  | float
  | int32
  | int64
  | uint32
  | uint64
  | sint32
  | sint64
  | fixed32
  | fixed64
  | sfixed32
  | sfixed64
  | bool
  | string
  | bytes
  | enum
deriving DecidableEq, Repr

namespace Scalar

def all : List Scalar :=
  [.double, .float, .int32, .int64, .uint32, .uint64, .sint32, .sint64, .fixed32, .fixed64,
    .sfixed32, .sfixed64, .bool, .string, .bytes, .enum]

def keyword : Scalar → String
  | .double => "double"
  | .float => "float"
  | .int32 => "int32"
  | .int64 => "int64"
  | .uint32 => "uint32"
  | .uint64 => "uint64"
  | .sint32 => "sint32"
  | .sint64 => "sint64"
  | .fixed32 => "fixed32"
  | .fixed64 => "fixed64"
  | .sfixed32 => "sfixed32"
  | .sfixed64 => "sfixed64"
  | .bool => "bool"
  | .string => "string"
  | .bytes => "bytes"
  | .enum => "enum"

def ofKeyword? (s : String) : Option Scalar := all.find? (·.keyword = s)

theorem ofKeyword?_keyword (t : Scalar) : ofKeyword? t.keyword = some t := by
  cases t <;> rfl

/-- The built-in type that a keyword has to name. -/
def ofKeyword (s : String) : Except Fault Scalar :=
  match ofKeyword? s with
  | some t => .ok t
  | none => .error (.unknownScalar s)

/-- How values of the type are put on the wire. -/
def coding : Scalar → Wire.Coding
  | .double => .double
  | .float => .float
  | .int32 | .int64 | .uint32 | .uint64 | .enum => .varint
  | .sint32 | .sint64 => .svarint
  | .fixed32 => .fixed32
  | .fixed64 => .fixed64
  | .sfixed32 => .sfixed32
  | .sfixed64 => .sfixed64
  | .bool => .boolean
  | .string => .string
  | .bytes => .bytes

/-- Whether a varint of the type is read as a signed number. -/
def signed : Scalar → Bool
  | .int32 | .int64 | .enum => true
  | _ => false

/-- The operation that reads a value, or a packed run of values, of the type. -/
def reader (t : Scalar) (packed : Bool) : Cursor.Method :=
  if packed then .readPacked t.coding else .read t.coding

/-- The operation that writes a field, or a packed field, of the type. -/
def writer (t : Scalar) (packed : Bool) : Cursor.Method :=
  if packed then .writePacked t.coding else .writeField t.coding

/-! ### Values -/

/-- The value of a field of the type that is absent; byte strings have none. -/
def zeroValue : Scalar → Value
  | .double | .float => .float .zero
  | .bool => .bool false
  | .string => .str ""
  | .bytes => .none
  | .int32 | .int64 | .uint32 | .uint64 | .sint32 | .sint64 | .fixed32 | .fixed64 | .sfixed32
  | .sfixed64 | .enum => .int 0

end Scalar

/-- The value that a default literal denotes in the type that a keyword names. -/
def castDefault (field : Value) (type literal : String) : Except Fault Value :=
  let expect {α : Type} (wrap : α → Value) : Option α → Except Fault Value
    | some a => .ok (wrap a)
    | none => .error (.uncastableDefault literal field type)
  match Scalar.ofKeyword? type with
  | some .string => .ok (.str literal)
  | some .double | some .float => expect .float (Text.float? literal)
  | some .bool => .ok (.bool (literal = "true"))
  | some .int32 | some .int64 | some .uint32 | some .uint64 | some .sint32 | some .sint64
  | some .fixed32 | some .fixed64 | some .sfixed32 | some .sfixed64 =>
    expect .int (Text.integer? literal)
  | some .bytes | some .enum | none => .error (.unexpectedDefault field type)

end ProtoScribe
