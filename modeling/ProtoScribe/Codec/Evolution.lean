import ProtoScribe.Codec.Slot

/-!
# Messages between schemas

A message can be taken to a schema that knows fewer of its fields, or more. `restrict` leaves out the
entries of fields that are not known, at every depth. `extend` adds what fields hold that the message
could not know: an empty list or the default. Values that are no messages stay as they are.
-/

namespace ProtoScribe

/-- A single value of a slot, with `f` applied to it if it is a message. -/
def Slot.mapMessage (f : Place → Value → Value) (s : Slot) (v : Value) : Value :=
  match s.target, v with
  | .message q, .dict _ => f q v
  | _, _ => v

/-- What a message holds for a slot, with `f` applied to the messages in it. -/
def Slot.mapMessages (f : Place → Value → Value) (s : Slot) (v : Value) : Value :=
  if s.field.repeated then
    match v with
    | .list items => .list (items.map (s.mapMessage f))
    | _ => v
  else s.mapMessage f v

namespace Codec

/-- The entry of a message among those of given slots, if there is a slot for it. -/
def restricted? (embedded : Place → Value → Value) (slots : List Slot) (entry : Value × Value) :
    Option (Value × Value) :=
  (slots.find? (·.field.name = entry.1)).map fun s => (entry.1, s.mapMessages embedded entry.2)

/-- A message without the entries that the type at a place has no field for. -/
def restrict : Place → Value → Value :=
  fold .none fun embedded slots entries => .dict (entries.filterMap (restricted? embedded slots))

/-- What a message holds for a slot. -/
def extended? (embedded : Place → Value → Value) (entries : List (Value × Value)) (s : Slot) :
    Option Value :=
  (Value.find? entries s.field.name).map (s.mapMessages embedded)

/-- The entry of a slot that starts filled: what the message holds for it, or what it starts with. -/
def extendedOr? (embedded : Place → Value → Value) (entries : List (Value × Value)) (s : Slot) :
    Option (Value × Value) :=
  s.initial?.map fun (key, start) => (key, (extended? embedded entries s).getD start)

/-- The entry of a slot that does not start filled, if the message has one. -/
def extendedOnly? (embedded : Place → Value → Value) (entries : List (Value × Value)) (s : Slot) :
    Option (Value × Value) :=
  match s.initial? with
  | some _ => none
  | none => (extended? embedded entries s).map (s.field.name, ·)

/-- A message with entries for all fields of the type at a place that have a value when absent. -/
def extend : Place → Value → Value :=
  fold .none fun embedded slots entries =>
    .dict (slots.filterMap (extendedOr? embedded entries) ++ slots.filterMap (extendedOnly? embedded entries))

end Codec

end ProtoScribe
