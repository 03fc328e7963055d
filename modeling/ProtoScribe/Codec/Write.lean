import ProtoScribe.Codec.Slot

/-!
# Writing by slots

A message is written slot by slot: a repeated field if it has items, any other field if it is present,
that is, if it is set and does not have the default of its slot. What is no dictionary has no entries,
and that is noticed by the first slot that looks for one.
-/

namespace ProtoScribe.Codec

def entryOrNone (message : Value) (s : Slot) : Except Fault Value :=
  match message with
  | .dict entries => .ok ((Value.find? entries s.field.name).getD .none)
  | _ => .error .noMember

/-- Whether the value of a field that is not repeated is written. -/
def isPresent (s : Slot) (v : Value) : Bool :=
  if s.isMessage ∨ s.field.default = .none then v ≠ .none
  else if s.field.default.truthy then v ≠ .none && !v.equals s.field.default
  else v.truthy

def writeValue (embedded : Place → Value → Run Unit) (s : Slot) (v : Value) : Run Unit :=
  let tag := Value.int s.field.tag
  match s.target with
  | .message p => Cursor.writeMessage tag (embedded p v)
  | .enumeration _ => Cursor.writeField Scalar.enum.coding tag v
  | .scalar t => Cursor.writeField t.coding tag v

/-- Writes the items of a repeated slot, as a packed run or one by one. -/
def writeItems (embedded : Place → Value → Run Unit) (s : Slot) (v : Value) : Run Unit :=
  match s.packedAs? with
  | some t => Cursor.writePacked t.coding (.int s.field.tag) v
  | none => match v.items? with
    | some items => items.forM (writeValue embedded s)
    | none => throw .wrongType

def writeSlot (embedded : Place → Value → Run Unit) (message : Value) (s : Slot) : Run Unit := do
  let v ← Cursor.lift (entryOrNone message s)
  if s.field.repeated then
    if v.truthy then writeItems embedded s v
  else if isPresent s v then writeValue embedded s v

/-- Writes a message of the type at a place; messages may nest up to the given depth. -/
def writeNested : (depth : Nat) → Place → Value → Run Unit
  | 0, _, _ => throw .tooDeep
  | depth + 1, p, message => do
    let slots ← Cursor.lift p.slots
    slots.forM (writeSlot (writeNested depth) message)

def write (p : Place) (message : Value) : Run Unit := writeNested (message.depth + 2) p message

end ProtoScribe.Codec
