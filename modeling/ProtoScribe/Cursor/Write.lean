import ProtoScribe.Cursor.Read

/-!
# Writing

Writers append to the buffer. The length of an embedded message or packed run is not known before it
is written: its bytes are appended first, and the length is inserted in front of them when they are
complete. A writer that fails leaves what it had appended, without the lengths still to come.
-/

namespace ProtoScribe.Cursor

def writeVarint (v : Int) : Run Unit := append (Wire.varint v)

/-- The key of a field: the tag shifted past the three bits of the wire type. -/
def keyOf (tag wireType : Int) : Int :=
  ((tag * 8 % 2 ^ 64).toNat ||| (wireType % 2 ^ 64).toNat : Nat)

/-- The key of a field; both parts have to be integers. -/
def writeTag (tag wireType : Value) : Run Unit :=
  match tag.strictInteger?, wireType.strictInteger? with
  | some tag, some wireType => writeVarint (keyOf tag wireType)
  | _, _ => throw .wrongType

/-- A length and that many bytes. What has a length but is no byte string fails after the length. -/
def writeBytes (v : Value) : Run Unit :=
  match v.size? with
  | none => throw .wrongType
  | some size => do
    writeVarint size
    match v with
    | .bytes b => append b
    | _ => throw .wrongType

def encodeText (s : String) : List UInt8 := s.toByteArray.data.toList

def write (coding : Wire.Coding) (v : Value) : Run Unit :=
  match coding with
  | .varint => do writeVarint (← lift v.toInteger)
  | .svarint => do writeVarint (Wire.zigzag (← lift v.toInteger))
  | .boolean => writeVarint (if v.truthy then 1 else 0)
  | .fixed32 => do append (← lift (Wire.fixedBytes 4 false v))
  | .sfixed32 => do append (← lift (Wire.fixedBytes 4 true v))
  | .fixed64 => do append (← lift (Wire.fixedBytes 8 false v))
  | .sfixed64 => do append (← lift (Wire.fixedBytes 8 true v))
  | .float => do append (← lift (Wire.floatBytes v))
  | .double => do append (← lift (Wire.doubleBytes v))
  | .bytes => writeBytes v
  | .string => do writeBytes (.bytes (encodeText (← lift v.toText)))

def writeField (coding : Wire.Coding) (tag v : Value) : Run Unit := do
  writeTag tag (.int coding.wireType)
  write coding v

def insertAt (start : Nat) (bytes : List UInt8) : Run Unit := fun c =>
  .ok () { c with buf := c.buf.take start ++ bytes ++ c.buf.drop start }

/-- Runs a writer and puts the length of what it wrote in front. -/
def writeFramed (body : Run Unit) : Run Unit := do
  let start := (← get).buf.length
  body
  let size := (← get).buf.length - start
  insertAt start (Wire.varint size)

def writeMessage (tag : Value) (body : Run Unit) : Run Unit := do
  writeTag tag (.int 2)
  writeFramed body

def writeEach (coding : Wire.Coding) : List Value → Run Unit
  | [] => pure ()
  | v :: vs => do
    write coding v
    writeEach coding vs

/-- The items of a value as one packed run; nothing at all when there are none. -/
def writePacked (coding : Wire.Coding) (tag v : Value) : Run Unit :=
  if v.truthy then
    writeMessage tag (match v.items? with
      | some vs => writeEach coding vs
      | none => throw .wrongType)
  else pure ()

end ProtoScribe.Cursor
