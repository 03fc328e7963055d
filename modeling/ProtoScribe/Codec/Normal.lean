import ProtoScribe.Codec.Slot

/-!
# Normal forms

The normal form of a message is what a reader makes of its encoding. It has an entry for every slot
that starts filled: the list of a repeated slot, also when it is empty, and the value or the default
of a slot with a default. The slots without default follow, those that are set. Entries that belong
to no slot are dropped, and embedded messages are in normal form themselves.

A value that is equal to the default becomes the default, which changes the sign of a zero at most. A
number of single precision is what its encoding denotes, which changes the payload of a NaN at most.
-/

namespace ProtoScribe.Codec

def normalScalar (t : Scalar) (v : Value) : Value :=
  match t, v with
  | .float, .float x => .float ((x.narrow?.map Binary64.widen).getD x)
  | _, _ => v

def normalValue (embedded : Place → Value → Value) (s : Slot) (v : Value) : Value :=
  match s.target with
  | .message p => embedded p v
  | .enumeration _ => v
  | .scalar t => normalScalar t v

def normalValues (embedded : Place → Value → Value) (entries : List (Value × Value)) (s : Slot) :
    List Value :=
  (s.carried entries).map (normalValue embedded s)

/-- What a slot holds that carries some values and starts out as `start`. -/
def settled (s : Slot) (start : Value) (values : List Value) : Value :=
  if s.field.repeated then .list values else values.headD start

/-- The entry of a slot that starts filled. -/
def filled? (embedded : Place → Value → Value) (entries : List (Value × Value)) (s : Slot) :
    Option (Value × Value) :=
  s.initial?.map fun (key, start) => (key, settled s start (normalValues embedded entries s))

/-- The entry of a slot that does not start filled, if it is set. -/
def added? (embedded : Place → Value → Value) (entries : List (Value × Value)) (s : Slot) :
    Option (Value × Value) :=
  match s.initial? with
  | some _ => none
  | none => (normalValues embedded entries s).head?.map (s.field.name, ·)

def normal : Place → Value → Value :=
  fold .none fun embedded slots entries =>
    .dict (slots.filterMap (filled? embedded entries) ++ slots.filterMap (added? embedded entries))

end ProtoScribe.Codec
