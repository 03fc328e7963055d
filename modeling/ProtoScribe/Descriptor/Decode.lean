import ProtoScribe.Descriptor.Basic

/-!
# Decoding descriptor sets

A descriptor set is itself a protobuf message. `Shape` tells, for every kind of message in it, which
fields hold messages and which hold runs of numbers; all other fields are numbers or strings. A set is
rejected when anything in it is malformed, also in parts that no schema needs.

`decode` yields the fields of a message in order of arrival. Fields that arrive with a wire type other
than the declared one are checked and then ignored, like fields that no shape declares.
-/

namespace ProtoScribe.Descriptor

/-! ### Shapes -/

inductive Shape
  | fileSet
  | file
  | message
  | extensionRange
  | extensionRangeOptions
  | field
  | fieldOptions
  | editionDefault
  | oneof
  | enum
  | enumValue
  | enumValueOptions
  | service
  | method
  | fileOptions
  | messageOptions
  | oneofOptions
  | enumOptions
  | serviceOptions
  | methodOptions
  | uninterpretedOption
  | sourceInfo
  | location
  /-- A message all of whose fields are numbers or strings. -/
  | plain
deriving DecidableEq, Repr

/-- What the length-delimited form of a field holds. -/
inductive Content
  | message (shape : Shape)
  | numbers
  | text

/-- The content of a length-delimited field, by the kind of message it stands in and its number. -/
def Shape.content : Shape → Nat → Content
  | .fileSet, 1 => .message .file
  | .file, 4 => .message .message
  | .file, 5 => .message .enum
  | .file, 6 => .message .service
  | .file, 7 => .message .field
  | .file, 8 => .message .fileOptions
  | .file, 9 => .message .sourceInfo
  | .file, 10 | .file, 11 => .numbers
  | .message, 2 => .message .field
  | .message, 3 => .message .message
  | .message, 4 => .message .enum
  | .message, 5 => .message .extensionRange
  | .message, 6 => .message .field
  | .message, 7 => .message .messageOptions
  | .message, 8 => .message .oneof
  | .message, 9 => .message .plain
  | .extensionRange, 3 => .message .extensionRangeOptions
  | .extensionRangeOptions, 2 => .message .plain
  | .extensionRangeOptions, 50 => .message .plain
  | .extensionRangeOptions, 999 => .message .uninterpretedOption
  | .field, 8 => .message .fieldOptions
  | .fieldOptions, 19 => .numbers
  | .fieldOptions, 20 => .message .editionDefault
  | .fieldOptions, 21 | .fieldOptions, 22 => .message .plain
  | .fieldOptions, 999 => .message .uninterpretedOption
  | .oneof, 2 => .message .oneofOptions
  | .enum, 2 => .message .enumValue
  | .enum, 3 => .message .enumOptions
  | .enum, 4 => .message .plain
  | .enumValue, 3 => .message .enumValueOptions
  | .enumValueOptions, 2 | .enumValueOptions, 4 => .message .plain
  | .enumValueOptions, 999 => .message .uninterpretedOption
  | .service, 2 => .message .method
  | .service, 3 => .message .serviceOptions
  | .method, 4 => .message .methodOptions
  | .fileOptions, 50 => .message .plain
  | .fileOptions, 999 => .message .uninterpretedOption
  | .messageOptions, 12 => .message .plain
  | .messageOptions, 999 => .message .uninterpretedOption
  | .oneofOptions, 1 => .message .plain
  | .oneofOptions, 999 => .message .uninterpretedOption
  | .enumOptions, 7 => .message .plain
  | .enumOptions, 999 => .message .uninterpretedOption
  | .serviceOptions, 34 => .message .plain
  | .serviceOptions, 999 => .message .uninterpretedOption
  | .methodOptions, 35 => .message .plain
  | .methodOptions, 999 => .message .uninterpretedOption
  | .uninterpretedOption, 2 => .message .plain
  | .sourceInfo, 1 => .message .location
  | .location, 1 | .location, 2 => .numbers
  | _, _ => .text

/-! ### Fields -/

/-- A number at the front of some bytes, in at most `limit` bytes. -/
def number? (limit : Nat) (bytes : List UInt8) : Option (Nat × List UInt8) :=
  let s := Wire.scan limit bytes
  match s.value with
  | .ok n => some (n % 2 ^ 64, bytes.drop s.taken)
  | .error _ => none

def cut? (size : Nat) (bytes : List UInt8) : Option (List UInt8 × List UInt8) :=
  if size ≤ bytes.length then some (bytes.splitAt size) else none

/-- The key of a field: its number, which is not zero, and its wire type. A key has at most five
bytes and 32 bits. -/
def key? (bytes : List UInt8) : Option (Nat × Nat × List UInt8) :=
  match number? 5 bytes with
  | some (key, rest) =>
    if key < 2 ^ 32 ∧ key / 8 ≠ 0 then some (key / 8, key % 8, rest) else none
  | none => none

/-- A length and that many bytes. A length has at most five bytes and 31 bits. -/
def delimited? (bytes : List UInt8) : Option (List UInt8 × List UInt8) :=
  match number? 5 bytes with
  | some (size, rest) => if size < 2 ^ 31 then cut? size rest else none
  | none => none

/-- What is left after a group with the given number, whose key has been read. Every field of it takes
at least one byte. -/
def skipGroup : (fuel : Nat) → (number : Nat) → List UInt8 → Option (List UInt8)
  | 0, _, _ => none
  | fuel + 1, number, bytes =>
    match key? bytes with
    | none => none
    | some (n, wireType, rest) =>
      let next : Option (List UInt8) := match wireType with
        | 0 => (number? 10 rest).map (·.2)
        | 1 => (cut? 8 rest).map (·.2)
        | 2 => (delimited? rest).map (·.2)
        | 3 => skipGroup fuel n rest
        | 5 => (cut? 4 rest).map (·.2)
        | _ => none
      if wireType = 4 then (if n = number then some rest else none)
      else match next with
        | some rest => skipGroup fuel number rest
        | none => none

/-- Whether bytes are a run of numbers. -/
def isNumbers : (fuel : Nat) → List UInt8 → Bool
  | _, [] => true
  | 0, _ :: _ => false
  | fuel + 1, bytes => match number? 10 bytes with
    | some (_, rest) => isNumbers fuel rest
    | none => false

/-- A decoded field: a number, a string, or the fields of a message. -/
inductive Tree
  | number (n : Nat)
  | text (bytes : List UInt8)
  | message (fields : List (Nat × Tree))
  | ignored
deriving Inhabited

/-- The fields of a message of the given kind. Every field, and every nesting, takes at least one
byte. -/
def decode : (fuel : Nat) → Shape → List UInt8 → Option (List (Nat × Tree))
  | _, _, [] => some []
  | 0, _, _ :: _ => none
  | fuel + 1, shape, bytes => do
    let (n, wireType, rest) ← key? bytes
    let (tree, rest) ← match wireType with
      | 0 => (number? 10 rest).map fun (v, rest) => (Tree.number v, rest)
      | 1 => (cut? 8 rest).map fun (_, rest) => (Tree.ignored, rest)
      | 2 => do
        let (body, rest) ← delimited? rest
        match shape.content n with
        | .message inner => (decode fuel inner body).map fun fields => (Tree.message fields, rest)
        | .numbers => if isNumbers body.length body then some (Tree.ignored, rest) else none
        | .text => some (Tree.text body, rest)
      | 3 => (skipGroup rest.length n rest).map fun rest => (Tree.ignored, rest)
      | 5 => (cut? 4 rest).map fun (_, rest) => (Tree.ignored, rest)
      | _ => none
    let fields ← decode fuel shape rest
    return (n, tree) :: fields

/-! ### Reading decoded fields -/

def numbers (fields : List (Nat × Tree)) (n : Nat) : List Nat :=
  fields.filterMap fun
    | (m, .number v) => if m = n then some v else none
    | _ => none

def text? (fields : List (Nat × Tree)) (n : Nat) : Option String :=
  let texts := fields.filterMap fun
    | (m, .text b) => if m = n then some ((String.fromUTF8? ⟨b.toArray⟩).getD "") else none
    | _ => none
  texts.getLast?

def messages (fields : List (Nat × Tree)) (n : Nat) : List (List (Nat × Tree)) :=
  fields.filterMap fun
    | (m, .message inner) => if m = n then some inner else none
    | _ => none

def int32 (fields : List (Nat × Tree)) (n : Nat) : Int :=
  match (numbers fields n).getLast? with
  | some v => Wire.twosComplement 32 (v % 2 ^ 32)
  | none => 0

/-- The last number of a field among the allowed ones; others are ignored. -/
def choice (fields : List (Nat × Tree)) (n : Nat) (first last : Nat) : Nat :=
  let allowed := (numbers fields n).filterMap fun v =>
    let v := v % 2 ^ 32
    if first ≤ v ∧ v ≤ last then some v else none
  allowed.getLast?.getD first

def fieldOf (fields : List (Nat × Tree)) : FieldDescriptor where
  name := (text? fields 1).getD ""
  number := int32 fields 3
  repeated := choice fields 4 1 3 = 3
  type := choice fields 5 1 18
  typeName := (text? fields 6).getD ""
  defaultValue := text? fields 7
  packed := ((messages fields 8).flatMap (numbers · 2)).getLast?.map (· != 0)

def enumOf (fields : List (Nat × Tree)) : EnumDescriptor where
  name := (text? fields 1).getD ""
  values := (messages fields 2).map fun value => ((text? value 1).getD "", int32 value 2)

mutual

def messageOf (fields : List (Nat × Tree)) : MessageDescriptor :=
  { name := (text? fields 1).getD ""
    fields := (messages fields 2).map fieldOf
    enums := (messages fields 4).map enumOf
    messages := nestedOf 3 fields }

def nestedOf (n : Nat) : List (Nat × Tree) → List MessageDescriptor
  | [] => []
  | (m, .message inner) :: rest =>
    if m = n then messageOf inner :: nestedOf n rest else nestedOf n rest
  | _ :: rest => nestedOf n rest

end

def fileOf (fields : List (Nat × Tree)) : FileDescriptor where
  name := (text? fields 1).getD ""
  package := (text? fields 2).getD ""
  version := (text? fields 12).getD ""
  enums := (messages fields 5).map enumOf
  messages := nestedOf 4 fields

def files (bytes : List UInt8) : Except Fault (List FileDescriptor) :=
  match decode bytes.length .fileSet bytes with
  | some fields => .ok ((messages fields 1).map fileOf)
  | none => .error .corruptDescriptor

/-- The file of a name, or the last file when none is asked for. -/
def select (fileName : Option String) (files : List FileDescriptor) : Except Fault FileDescriptor :=
  match files.getLast? with
  | none => .error .noFiles
  | some last => match fileName with
    | none => .ok last
    | some name => match files.find? (·.name = name) with
      | some f => .ok f
      | none => .error (.noSuchFile name)

end ProtoScribe.Descriptor

namespace ProtoScribe

def Schema.ofDescriptorSet (bytes : List UInt8) (fileName : Option String) : Except Fault Schema := do
  let files ← Descriptor.files bytes
  let file ← Descriptor.select fileName files
  file.toSchema

end ProtoScribe
