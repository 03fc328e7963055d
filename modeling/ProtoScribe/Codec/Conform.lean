import ProtoScribe.Codec.Slot

/-!
# Well-typed messages

A message is well-typed if each of its slots is absent, nothing, or holds a value of its type, and a
list of such values if it is repeated. Entries that belong to no slot do not matter.
-/

namespace ProtoScribe.Codec

def inRange (low high : Int) : Value → Bool
  | .int n => low ≤ n && n < high
  | _ => false

def isSingle (x : Binary64) : Bool :=
  x.isNaN || match x.narrow? with
    | some bits => Binary64.widen bits = x
    | none => false

/-- Whether a value belongs to a built-in type. The variable-length types hold 64 bits whatever their
name says. -/
def isOf (t : Scalar) (v : Value) : Bool :=
  match t with
  | .int32 | .int64 | .sint32 | .sint64 | .enum | .sfixed64 => inRange (-2 ^ 63) (2 ^ 63) v
  | .uint32 | .uint64 | .fixed64 => inRange 0 (2 ^ 64) v
  | .fixed32 => inRange 0 (2 ^ 32) v
  | .sfixed32 => inRange (-2 ^ 31) (2 ^ 31) v
  | .bool => match v with
    | .bool _ => true
    | _ => false
  | .string => match v with
    | .str _ => true
    | _ => false
  | .bytes => match v with
    | .bytes _ => true
    | _ => false
  | .double => match v with
    | .float _ => true
    | _ => false
  | .float => match v with
    | .float x => isSingle x
    | _ => false

def fits (embedded : Place → Value → Bool) (s : Slot) (v : Value) : Bool :=
  match s.target with
  | .scalar t => isOf t v
  | .enumeration _ => isOf .enum v
  | .message p => embedded p v

def slotFits (embedded : Place → Value → Bool) (entries : List (Value × Value)) (s : Slot) : Bool :=
  match s.held entries, s.field.repeated with
  | .none, _ => true
  | .list items, true => items.all (fits embedded s)
  | _, true => false
  | v, false => fits embedded s v

/-- Whether a value is a well-typed message of the type at a place. -/
def conforms : Place → Value → Bool :=
  fold false fun embedded slots entries => slots.all (slotFits embedded entries)

end ProtoScribe.Codec
