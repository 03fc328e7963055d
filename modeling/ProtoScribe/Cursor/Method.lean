import ProtoScribe.Cursor.Write

/-!
# Operations by name

Generated code and scripts name the operations of a cursor. `Method` lists the operations that take
plain values, `Method.ofName?` finds one by its name, and `Method.call` applies it to arguments. The others
call back (`Combinator`), and they too can be handed plain values in place of a function.
-/

namespace ProtoScribe.Cursor

inductive Method
  | read (coding : Wire.Coding)
  | readPacked (coding : Wire.Coding)
  | write (coding : Wire.Coding)
  | writeField (coding : Wire.Coding)
  | writePacked (coding : Wire.Coding)
  | writeTag
  | skip
  | finish
deriving DecidableEq, Repr

namespace Method

def name : Method → String
  | .read coding => "read_" ++ coding.name
  | .readPacked coding => "read_packed_" ++ coding.name
  | .write coding => "write_" ++ coding.name
  | .writeField coding => "write_" ++ coding.name ++ "_field"
  | .writePacked coding => "write_packed_" ++ coding.name
  | .writeTag => "write_tag"
  | .skip => "skip"
  | .finish => "finish"

def all : List Method :=
  let packable := Wire.Coding.all.filter (·.packable)
  Wire.Coding.all.map .read ++ packable.map .readPacked ++ Wire.Coding.all.map .write ++
    Wire.Coding.all.map .writeField ++ packable.map .writePacked ++ [.writeTag, .skip, .finish]

def ofName? (name : String) : Option Method := all.find? (·.name = name)

/-- Applies an operation. Only the varint readers take an argument that asks for signed numbers, and
the packed readers one that they extend. -/
def call : Method → List Value → Run Value
  | .read coding, [] => Cursor.read coding
  | .read .varint, [signed] => readAs .varint signed.truthy
  | .readPacked coding, [] => Cursor.readPacked coding false .none
  | .readPacked coding, [list] => Cursor.readPacked coding false list
  | .readPacked .varint, [list, signed] => Cursor.readPacked .varint signed.truthy list
  | .write coding, [v] => do Cursor.write coding v; return .none
  | .writeField coding, [tag, v] => do Cursor.writeField coding tag v; return .none
  | .writePacked coding, [tag, v] => do Cursor.writePacked coding tag v; return .none
  | .writeTag, [tag, wireType] => do Cursor.writeTag tag wireType; return .none
  | .skip, [key] =>
    match key.strictInteger? with
    | some key => do Cursor.skip (key % 8).toNat; return .none
    | none => throw .wrongType
  | .finish, [] => do return .bytes (← Cursor.finish)
  | _, _ => throw .wrongType

end Method

/-- An operation of the cursor that calls a function it is given. -/
inductive Combinator
  | readFields
  | readMessage
  | writeMessage
  | writeRaw
deriving DecidableEq, Repr

namespace Combinator

def name : Combinator → String
  | .readFields => "read_fields"
  | .readMessage => "read_message"
  | .writeMessage => "write_message"
  | .writeRaw => "write_raw_message"

def all : List Combinator := [.readFields, .readMessage, .writeMessage, .writeRaw]

def ofName? (name : String) : Option Combinator := all.find? (·.name = name)

/-- Applies an operation to plain values, with none of them a function. This is noticed when the function is
called and not before: by then a key or a length has been read, or a key written. Where there is no field to
call it for, it is not noticed at all. -/
def call : Combinator → List Value → Run Value
  | .readFields, [_, init] => Cursor.readFields uncallable .none init
  | .readFields, [_, init, stop] => Cursor.readFields uncallable stop init
  | .readMessage, [_, init] => do
    let size ← readVarint
    let pos := (← get).pos
    Cursor.readFields uncallable (.int (size + pos : Nat)) init
  | .writeMessage, [tag, _, _] => do Cursor.writeMessage tag (throw .wrongType); return .none
  | .writeRaw, [_, _] => do writeFramed (throw .wrongType); return .none
  | _, _ => throw .wrongType
where
  uncallable (_ : Nat) (_ : Value) : Run Value := throw .wrongType

end Combinator

/-- Applies the operation of a name to plain values. -/
def callByName (name : String) (args : List Value) : Run Value :=
  match Method.ofName? name, Combinator.ofName? name with
  | some m, _ => m.call args
  | none, some k => k.call args
  | none, none => throw .noMember

end ProtoScribe.Cursor
