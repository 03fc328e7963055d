import ProtoScribe.Codec.Slot

/-!
# Encoding in two passes

The encoding of a message as a function of the message alone: the size of every part is computed
first, and the bytes then follow with their lengths in front. It is defined on all values and means
something on well-typed messages.
-/

namespace ProtoScribe.Codec

/-- The number of base-128 digits of a number. -/
def varintSize (n : Nat) : Nat := n.log2 / 7 + 1

def integerOf : Value → Int
  | .int n => n
  | .bool b => if b then 1 else 0
  | _ => 0

/-- The number that a value is written as in a variable-length coding. -/
def numberOf (coding : Wire.Coding) (v : Value) : Nat :=
  match coding with
  | .svarint => (Wire.zigzag (integerOf v) % 2 ^ 64).toNat
  | _ => (integerOf v % 2 ^ 64).toNat

def contentOf : Value → List UInt8
  | .str s => Cursor.encodeText s
  | .bytes b => b
  | _ => []

def valueSize (coding : Wire.Coding) (v : Value) : Nat :=
  match coding with
  | .varint | .svarint | .boolean => varintSize (numberOf coding v)
  | .fixed32 | .sfixed32 | .float => 4
  | .fixed64 | .sfixed64 | .double => 8
  | .bytes | .string => varintSize (contentOf v).length + (contentOf v).length

def valueBytes (coding : Wire.Coding) (v : Value) : List UInt8 :=
  match coding, v with
  | .varint, _ | .svarint, _ | .boolean, _ => Wire.varint (numberOf coding v)
  | .fixed32, _ | .sfixed32, _ => Wire.littleEndian 4 (numberOf coding v)
  | .fixed64, _ | .sfixed64, _ => Wire.littleEndian 8 (numberOf coding v)
  | .float, .float x => Wire.littleEndian 4 (x.narrow?.getD 0).toNat
  | .double, .float x => Wire.littleEndian 8 x.bits.toNat
  | .float, _ => Wire.littleEndian 4 0
  | .double, _ => Wire.littleEndian 8 0
  | .bytes, _ | .string, _ => Wire.varint (contentOf v).length ++ contentOf v

/-- The number that stands in front of a field. -/
def keyNumber (tag : Int) (wireType : Nat) : Nat := 8 * tag.toNat + wireType

/-! ### Sizes -/

def total {α : Type} (size : α → Nat) : List α → Nat
  | [] => 0
  | a :: rest => size a + total size rest

/-- The size of a length and what it counts. -/
def framedSize (size : Nat) : Nat := varintSize size + size

def scalarSize (tag : Int) (t : Scalar) (v : Value) : Nat :=
  varintSize (keyNumber tag t.coding.wireType) + valueSize t.coding v

def fieldSize (embedded : Place → Value → Nat) (s : Slot) (v : Value) : Nat :=
  match s.target with
  | .message p => varintSize (keyNumber s.field.tag 2) + framedSize (embedded p v)
  | .enumeration _ => scalarSize s.field.tag .enum v
  | .scalar t => scalarSize s.field.tag t v

def runSize (t : Scalar) (values : List Value) : Nat := total (valueSize t.coding) values

/-- The size of a slot. A run without values is left out. -/
def slotSize (embedded : Place → Value → Nat) (entries : List (Value × Value)) (s : Slot) : Nat :=
  match s.packedAs?, s.carried entries with
  | some _, [] => 0
  | some t, values => varintSize (keyNumber s.field.tag 2) + framedSize (runSize t values)
  | none, values => total (fieldSize embedded s) values

def size : Place → Value → Nat :=
  fold 0 fun embedded slots entries => total (slotSize embedded entries) slots

/-! ### Bytes -/

def scalarBytes (tag : Int) (t : Scalar) (v : Value) : List UInt8 :=
  Wire.varint (keyNumber tag t.coding.wireType) ++ valueBytes t.coding v

def fieldBytes (embedded : Place → Value → List UInt8) (s : Slot) (v : Value) : List UInt8 :=
  match s.target with
  | .message p => Wire.varint (keyNumber s.field.tag 2) ++ Wire.varint (size p v) ++ embedded p v
  | .enumeration _ => scalarBytes s.field.tag .enum v
  | .scalar t => scalarBytes s.field.tag t v

def runBytes (tag : Int) (t : Scalar) (values : List Value) : List UInt8 :=
  Wire.varint (keyNumber tag 2) ++ Wire.varint (runSize t values) ++ values.flatMap (valueBytes t.coding)

/-- The bytes of a slot. A run without values is left out. -/
def slotBytes (embedded : Place → Value → List UInt8) (entries : List (Value × Value)) (s : Slot) :
    List UInt8 :=
  match s.packedAs?, s.carried entries with
  | some _, [] => []
  | some t, values => runBytes s.field.tag t values
  | none, values => values.flatMap (fieldBytes embedded s)

def encode : Place → Value → List UInt8 :=
  fold [] fun embedded slots entries => slots.flatMap (slotBytes embedded entries)

/-! ### Lengths -/

/-- Whether a number can stand in front of what it counts. -/
def isLength (n : Nat) : Bool := n < 2 ^ 64

def valueLengthsFit (embedded : Place → Value → Bool) (s : Slot) (v : Value) : Bool :=
  match s.target with
  | .message p => isLength (size p v) && embedded p v
  | .enumeration _ | .scalar _ => isLength (contentOf v).length

def slotLengthsFit (embedded : Place → Value → Bool) (entries : List (Value × Value)) (s : Slot) : Bool :=
  (s.carried entries).all (valueLengthsFit embedded s) &&
    match s.packedAs? with
    | some t => isLength (runSize t (s.carried entries))
    | none => true

/-- Whether every length in the encoding of a message can be written. -/
def lengthsFit : Place → Value → Bool :=
  fold false fun embedded slots entries => slots.all (slotLengthsFit embedded entries)

end ProtoScribe.Codec
