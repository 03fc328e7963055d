import ProtoScribe.Fault

/-!
# Reading values as numbers and text

What a dynamic value counts as where a number, a text or a byte string is needed, and the fault when
it does not.
-/

namespace ProtoScribe.Value

/-- The integer that a number or numeral denotes; a fraction is cut off. -/
def toInteger : Value → Except Fault Int
  | .bool b => .ok (if b then 1 else 0)
  | .int n => .ok n
  | .float x =>
    if x.isNaN then .error .badValue
    else match x.truncate? with
      | some n => .ok n
      | Option.none => .error .overflow
  | .str s => match Text.integer? s with
    | some n => .ok n
    | Option.none => .error .badValue
  | .bytes b => match Text.integerOfBytes? b with
    | some n => .ok n
    | Option.none => .error .badValue
  | .none | .list _ | .dict _ => .error .wrongType

/-- An integer or truth value as it is; nothing else counts as an integer here. -/
def strictInteger? : Value → Option Int
  | .bool b => some (if b then 1 else 0)
  | .int n => some n
  | _ => Option.none

/-- A text; anything else lacks the operations of one. -/
def toText : Value → Except Fault String
  | .str s => .ok s
  | _ => .error .noMember

theorem toText_ok {v : Value} {text : String} (h : v.toText = .ok text) : v = .str text := by
  cases v <;> cases h
  rfl

/-- The number of items of a value that has items, and of characters of a text. -/
def size? : Value → Option Nat
  | .str s => some s.length
  | .bytes b => some b.length
  | .list items => some items.length
  | .dict entries => some entries.length
  | .none | .bool _ | .int _ | .float _ => Option.none

end ProtoScribe.Value
