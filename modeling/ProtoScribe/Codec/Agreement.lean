import ProtoScribe.Codec.Slot

/-!
# Messages that agree

Two messages of a type agree if they hold the same for every slot and nothing else, down to the messages
inside. Only the sign of a zero may differ, in a slot whose default is zero: such a zero goes without
saying, whatever its sign.
-/

namespace ProtoScribe.Codec

/-- Whether two values of a slot are the same, where `embedded` compares messages. -/
def valuesAgree (embedded : Place → Value → Value → Bool) (s : Slot) (v w : Value) : Bool :=
  match s.target with
  | .message q => embedded q v w
  | .enumeration _ | .scalar _ => v = w

/-- Whether two lists have the same length and items that agree. -/
def itemsAgree (agree : Value → Value → Bool) : List Value → List Value → Bool
  | [], [] => true
  | v :: vs, w :: ws => agree v w && itemsAgree agree vs ws
  | _, _ => false

/-- Whether two values are zeros, and so is the default of the slot. -/
def areZeros (s : Slot) (v w : Value) : Bool :=
  match s.field.default, v, w with
  | .float d, .float x, .float y => d.isZero && x.isZero && y.isZero
  | _, _, _ => false

def slotAgrees (embedded : Place → Value → Value → Bool) (entries entries' : List (Value × Value))
    (s : Slot) : Bool :=
  match Value.find? entries s.field.name, Value.find? entries' s.field.name with
  | none, none => true
  | some v, some w =>
    if s.field.repeated then
      match v, w with
      | .list vs, .list ws => itemsAgree (valuesAgree embedded s) vs ws
      | _, _ => false
    else valuesAgree embedded s v w || areZeros s v w
  | _, _ => false

def keysKnown (slots : List Slot) (entries : List (Value × Value)) : Bool :=
  entries.all fun entry => slots.any (·.field.name = entry.1)

def messageAgrees (embedded : Place → Value → Value → Bool) (slots : List Slot)
    (entries : List (Value × Value)) (other : Value) : Bool :=
  match other with
  | .dict entries' =>
    keysKnown slots entries && keysKnown slots entries' && slots.all (slotAgrees embedded entries entries')
  | _ => false

def agrees : Place → Value → Value → Bool := fold (fun _ => false) messageAgrees

end ProtoScribe.Codec
