import ProtoScribe.Scope.Defaults

/-!
# Slots

A slot is a field together with what its type means. The slots of a message are all that is needed to
read and write it without generating code.
-/

namespace ProtoScribe

/-- A field with what its type means. -/
structure Slot where
  field : Field
  target : Target
deriving Repr

def Place.slots (p : Place) : Except Fault (List Slot) :=
  p.scope.fields.mapM fun f => (p.target f).map (⟨f, ·⟩)

namespace Slot

def isMessage (s : Slot) : Bool := s.target.isMessage

/-- The entry of a slot in a message without data: an empty list, or the default if there is one. -/
def initial? (s : Slot) : Option (Value × Value) :=
  if s.field.repeated then some (s.field.name, .list [])
  else if s.field.default = .none then none
  else some (s.field.name, s.field.default)

/-- The built-in type of a slot whose values may share one length-delimited field. -/
def runType? (s : Slot) : Option Scalar := if s.target.packable then s.target.scalar? else none

/-- The built-in type of a slot that is written as a packed run. -/
def packedAs? (s : Slot) : Option Scalar := if s.field.isPacked s.target then s.target.scalar? else none

/-! ### What a message holds for a slot -/

/-- The entry of a message for a slot, or nothing. -/
def held (s : Slot) (entries : List (Value × Value)) : Value :=
  (Value.find? entries s.field.name).getD .none

/-- Whether a value of a slot that is not repeated goes without saying: it is nothing, or equal to the
default. An embedded message never is the latter. -/
def omits (s : Slot) (v : Value) : Bool :=
  v = .none || !s.isMessage && s.field.default ≠ .none && v.equals s.field.default

/-- The values that a message carries for a slot: the items of a repeated slot, and the value of any
other slot unless it goes without saying. -/
def carried (s : Slot) (entries : List (Value × Value)) : List Value :=
  if s.field.repeated then
    match s.held entries with
    | .list items => items
    | _ => []
  else if s.omits (s.held entries) then []
  else [s.held entries]

end Slot

namespace Codec

/-- A function of messages that is given by what it makes of the slots and the entries of a message
when it is known for the messages inside. It is `otherwise` for what is no message, and for what is
nested more deeply than the given depth. -/
def foldNested {β : Type} (otherwise : β)
    (body : (Place → Value → β) → List Slot → List (Value × Value) → β) :
    (depth : Nat) → Place → Value → β
  | 0, _, _ => otherwise
  | depth + 1, p, message =>
    match p.slots, message with
    | .ok slots, .dict entries => body (foldNested otherwise body depth) slots entries
    | _, _ => otherwise

/-- A function of messages of the type at a place, by recursion on the messages inside. -/
def fold {β : Type} (otherwise : β)
    (body : (Place → Value → β) → List Slot → List (Value × Value) → β) (p : Place) (message : Value) :
    β :=
  foldNested otherwise body (message.depth + 1) p message

end Codec

end ProtoScribe
