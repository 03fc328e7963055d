import ProtoScribe.Cursor.Basic

/-!
# Reading

Readers of single values, of packed runs, of whole messages, and the skipping of a field by its wire
type. A failed reader leaves the position after what it consumed: a varint that breaks off is
consumed, a fixed-width or length-delimited value that would leave the buffer is not.
-/

namespace ProtoScribe.Cursor

def readVarint : Run Nat := fun c =>
  let s := Wire.scan 10 c.rest
  let c' := { c with pos := c.pos + s.taken }
  match s.value with
  | .ok n => .ok (n % 2 ^ 64) c'
  | .error e => .error e c'

def readSigned : Run Int := do return Wire.twosComplement 64 (← readVarint)

def readFixed (size : Nat) : Run Nat := fun c =>
  if c.length < c.pos + size then .error (.truncatedFixed size c.pos) c
  else .ok (Wire.ofLittleEndian (c.rest.take size)) { c with pos := c.pos + size }

def readBytes : Run (List UInt8) := do
  let size ← readVarint
  fun c =>
    if c.length < size + c.pos then .error (.truncatedBytes c.pos) c
    else .ok (c.rest.take size) { c with pos := size + c.pos }

def decodeText (bytes : List UInt8) : Except Fault String :=
  match String.fromUTF8? ⟨bytes.toArray⟩ with
  | some s => .ok s
  | none => .error .invalidText

def read : Wire.Coding → Run Value
  | .varint => do return .int (← readVarint)
  | .svarint => do return .int (Wire.unzigzag (← readVarint))
  | .boolean => do return .bool ((← readVarint) != 0)
  | .fixed32 => do return .int (← readFixed 4)
  | .sfixed32 => do return .int (Wire.twosComplement 32 (← readFixed 4))
  | .fixed64 => do return .int (← readFixed 8)
  | .sfixed64 => do return .int (Wire.twosComplement 64 (← readFixed 8))
  | .float => do return .float (Binary64.widen (UInt32.ofNat (← readFixed 4)))
  | .double => do return .float ⟨UInt64.ofNat (← readFixed 8)⟩
  | .bytes => do return .bytes (← readBytes)
  | .string => do return .str (← lift (decodeText (← readBytes)))

/-- One value in a coding; a varint may be read as signed. -/
def readAs (coding : Wire.Coding) (signed : Bool) : Run Value :=
  if coding = .varint ∧ signed then do return .int (← readSigned) else read coding

/-! ### Packed runs -/

/-- Values up to a position, at most `limit` of them. Each takes at least one byte, so the distance
to the position is limit enough. The end is looked at between values only: the last one may reach
past it. -/
def readUntil (element : Run Value) (stop : Nat) : (limit : Nat) → Run (List Value)
  | 0 => pure []
  | limit + 1 => do
    if (← get).pos < stop then
      let v ← element
      let vs ← readUntil element stop limit
      return v :: vs
    else return []

/-- Extends a list by values that are read. Nothing stands for the empty list; what is no list cannot
be extended, and then nothing is read. -/
def extendList (list : Value) (values : Run (List Value)) : Run Value :=
  match list with
  | .none => do return .list (← values)
  | .list items => do return .list (items ++ (← values))
  | _ => throw .noMember

/-- Extends a list by the values of a packed run, or by one value when the last key announced no
length-delimited field. What is no list is noticed only when there is a value to add. -/
def readPacked (coding : Wire.Coding) (signed : Bool) (list : Value) : Run Value := do
  let element := readAs coding signed
  if !(← get).isDelimited then extendList list (do return [← element])
  else
    let size ← readVarint
    let pos := (← get).pos
    if size = 0 then return (match list with | .none => .list [] | other => other)
    else extendList list (readUntil element (size + pos) size)

/-! ### Fields -/

/-- Moves to the end of a field that is skipped. -/
def jump (wireType stop : Nat) : Run Unit := fun c =>
  if c.length < stop then .error (.truncatedField wireType c.pos) c
  else .ok () { c with pos := stop }

/-- Moves past a field with the given key by its wire type. -/
def skip (key : Nat) : Run Unit :=
  match key % 8 with
  | 0 => discard readVarint
  | 1 => do jump 1 ((← get).pos + 8)
  | 2 => do
    let size ← readVarint
    jump 2 (size + (← get).pos)
  | 5 => do jump 5 ((← get).pos + 4)
  | wireType => throw (.unknownWireType wireType)

/-- Hands one field to `onField`, with its tag. A field that `onField` does not move past is
skipped. -/
def readNext {σ : Type} (onField : Nat → σ → Run σ) (acc : σ) : Run σ := do
  let key ← readVarint
  let start := (← get).pos
  setWireType (.int (key % 8 : Nat))
  let acc ← onField (key / 8) acc
  if (← get).pos = start then skip key
  return acc

/-- Hands fields to `onField` up to a position; at most `limit` fields, each of which takes at least
one byte. -/
def readFieldsUntil {σ : Type} (onField : Nat → σ → Run σ) (stop : Nat) :
    (limit : Nat) → σ → Run σ
  | 0, acc => pure acc
  | limit + 1, acc => do
    if (← get).pos < stop then
      let acc ← readNext onField acc
      readFieldsUntil onField stop limit acc
    else return acc

def readFieldsTo {σ : Type} (onField : Nat → σ → Run σ) (stop : Nat) (init : σ) : Run σ := do
  readFieldsUntil onField stop (stop - (← get).pos) init

/-- Where reading stops: at the given position, or at the end of the readable bytes when it counts
as false. A fraction stops at the next whole position, and infinity nowhere in the buffer. -/
def stopAt (stop : Value) (c : Cursor) : Except Fault Nat :=
  if !stop.truthy then .ok c.length
  else match stop with
    | .bool _ => .ok 1
    | .int n => .ok n.toNat
    | .float x =>
      if x.isNaN then .ok 0
      else match x.truncate? with
        | some n => .ok (if x.equalsInt n || x.negative then n.toNat else n.toNat + 1)
        | none => .ok (if x.negative then 0 else max c.length c.pos + 1)
    | _ => .error .wrongType

/-- Hands the fields up to `stop` to `onField`. -/
def readFields {σ : Type} (onField : Nat → σ → Run σ) (stop : Value) (init : σ) : Run σ := do
  readFieldsTo onField (← lift (stopAt stop (← get))) init

end ProtoScribe.Cursor
