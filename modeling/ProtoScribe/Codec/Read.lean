import ProtoScribe.Codec.Slot

/-!
# Reading by slots

A message is read from its slots: it starts from the defaults, each field goes to the first slot with
its tag, and a field that no slot takes is skipped.
-/

namespace ProtoScribe.Codec

/-- Reads one value for a slot. Embedded messages are read up to a position by `embedded`. -/
def readValue (embedded : Place → Value → Run Value) (t : Target) : Run Value :=
  match t with
  | .message p => do
    let size ← Cursor.readVarint
    let pos := (← get).pos
    embedded p (.int (size + pos : Nat))
  | .enumeration _ => Cursor.readAs Scalar.enum.coding Scalar.enum.signed
  | .scalar t => Cursor.readAs t.coding t.signed

/-- The entry of a message under a key that is there from the start. -/
def entry (message : List (Value × Value)) (key : Value) : Except Fault Value :=
  match Value.find? message key with
  | some v => .ok v
  | none => .error .missingKey

/-- Stores a value of a slot in a message. A packable repeated field takes a single value or a run of
values, any other repeated field one value at a time. -/
def store (embedded : Place → Value → Run Value) (s : Slot) (message : List (Value × Value)) :
    Run (List (Value × Value)) := do
  let key := s.field.name
  if s.field.repeated then
    let old ← Cursor.lift (entry message key)
    match s.runType?, old with
    | some t, .list _ => return Value.put message key (← Cursor.readPacked t.coding t.signed old)
    | some t, _ => do
      discard (Cursor.readPacked t.coding t.signed old)
      return message
    | none, .list items =>
      return Value.put message key (.list (items ++ [← readValue embedded s.target]))
    | none, _ => throw .noMember
  else return Value.put message key (← readValue embedded s.target)

def initial (slots : List Slot) : List (Value × Value) :=
  (slots.filterMap Slot.initial?).foldl (fun acc (k, v) => Value.put acc k v) []

def readField (embedded : Place → Value → Run Value) (slots : List Slot) (tag : Nat)
    (message : List (Value × Value)) : Run (List (Value × Value)) :=
  match slots.find? (fun s => s.field.tag = (tag : Int)) with
  | some s => store embedded s message
  | none => return message

/-- Reads the message at a place up to a position. Its fields are handed to `onField`. -/
def readWith (onField : List Slot → Nat → List (Value × Value) → Run (List (Value × Value))) (p : Place)
    (stop : Value) : Run Value := do
  let slots ← Cursor.lift p.slots
  return .dict (← Cursor.readFields (onField slots) stop (initial slots))

/-- Reads the message at a place up to a position; messages may nest up to the given depth. -/
def readNested : (depth : Nat) → Place → Value → Run Value
  | 0, _, _ => throw .tooDeep
  | depth + 1, p, stop => readWith (readField (readNested depth)) p stop

/-- Reads the message at a place up to a position. Every embedded message takes at least a byte. -/
def read (p : Place) (stop : Value) : Run Value := do
  readNested ((← get).rest.length + 1) p stop

end ProtoScribe.Codec
