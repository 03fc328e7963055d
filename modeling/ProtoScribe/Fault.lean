import ProtoScribe.Json
import ProtoScribe.Value.Display

/-!
# Faults

Every way in which an operation of this library can fail, as a cause with its data. The causes fall
into kinds (`Fault.kind`): four kinds belong to schemas and wire data and have a wording
(`Fault.message`), the others arise when data has the wrong shape for what is done with it.
-/

namespace ProtoScribe

inductive Fault
  /-- A schema description is not a dictionary. -/
  | notMapping (found : Value)
  | unsupportedVersion (found : Value)
  | unnamedEnum
  | unnamedMessage
  | enumValueNotInteger (enum : Value) (symbol : String)
  | missingEntry (field : Value) (key : String)
  | invalidJson (path : String) (reason : Json.Reason) (line column offset : Nat)
  | corruptDescriptor
  | noFiles
  | noSuchFile (name : String)
  | unsupportedFieldType (field : String) (code : Int)
  /-- A type that is no scalar keyword. -/
  | unknownScalar (type : String)
  /-- A field type that neither resolves nor is a scalar keyword. -/
  | unresolvedType (type : Value) (scope field : Value)
  /-- A top-level type named like something that generated code relies on. -/
  | reservedName (name : Value)
  /-- A nested type named like a generated method. -/
  | methodName (name : Value)
  /-- A default literal that does not denote a value of the field's type. -/
  | uncastableDefault (literal : String) (field : Value) (type : String)
  /-- A default literal on a type that takes none. -/
  | unexpectedDefault (field : Value) (type : String)
  | truncatedVarint
  | overlongVarint
  | truncatedFixed (size pos : Nat)
  | truncatedBytes (pos : Nat)
  | truncatedField (wireType pos : Nat)
  | unknownWireType (wireType : Nat)
  /-- An operation was applied to data of a type it does not take. -/
  | wrongType
  /-- An object has no member of the name asked for. -/
  | noMember
  /-- Data of the right type that denotes no value. -/
  | badValue
  /-- A number too large for its format. -/
  | overflow
  /-- Bytes that are not UTF-8. -/
  | invalidText
  /-- A number or datum that a fixed-width format cannot hold. -/
  | unpackable
  /-- A name that is bound to nothing. -/
  | unboundName
  /-- A dictionary has no entry under the key asked for. -/
  | missingKey
  | noFile
  | isDirectory
  | notDirectory
  /-- Calls nested deeper than allowed for. -/
  | tooDeep
deriving DecidableEq, Repr

namespace Fault

inductive Kind
  | schema
  | type
  | default
  | decode
  | wrongType
  | noMember
  | badValue
  | overflow
  | invalidText
  | unpackable
  | unboundName
  | missingKey
  | noFile
  | isDirectory
  | notDirectory
  | tooDeep
deriving DecidableEq, Repr

def kind : Fault → Kind
  | .notMapping _ | .unsupportedVersion _ | .unnamedEnum | .unnamedMessage
  | .enumValueNotInteger _ _ | .missingEntry _ _ | .invalidJson _ _ _ _ _ | .corruptDescriptor
  | .noFiles | .noSuchFile _ | .unsupportedFieldType _ _ => .schema
  | .unknownScalar _ | .unresolvedType _ _ _ | .reservedName _ | .methodName _ => .type
  | .uncastableDefault _ _ _ | .unexpectedDefault _ _ => .default
  | .truncatedVarint | .overlongVarint | .truncatedFixed _ _ | .truncatedBytes _
  | .truncatedField _ _ | .unknownWireType _ => .decode
  | .wrongType => .wrongType
  | .noMember => .noMember
  | .badValue => .badValue
  | .overflow => .overflow
  | .invalidText => .invalidText
  | .unpackable => .unpackable
  | .unboundName => .unboundName
  | .missingKey => .missingKey
  | .noFile => .noFile
  | .isDirectory => .isDirectory
  | .notDirectory => .notDirectory
  | .tooDeep => .tooDeep

/-- The wording of a fault of schemas or wire data; the other kinds have none. -/
def message? : Fault → Option String
  | .notMapping found => some s!"Expected a mapping, got {found.kindName}"
  | .unsupportedVersion found => some s!"Unsupported syntax: {found.display}"
  | .unnamedEnum => some "Enum is missing a name"
  | .unnamedMessage => some "Message is missing a name"
  | .enumValueNotInteger enum symbol =>
    some s!"Enum value {enum.plain}.{symbol} must be an integer"
  | .missingEntry field key =>
    some s!"Field {field.display} is missing {Text.quoted key}"
  | .invalidJson path reason line column offset =>
    some s!"Invalid JSON in {path}: {reason.text}: line {line} column {column} (char {offset})"
  | .corruptDescriptor =>
    some ("Failed to parse FileDescriptorSet: Error parsing message with type " ++
      "'google.protobuf.FileDescriptorSet': Wire format was corrupt")
  | .noFiles => some "FileDescriptorSet contains no files"
  | .noSuchFile name => some s!"File '{name}' not found in FileDescriptorSet"
  | .unsupportedFieldType field code =>
    some s!"Unsupported type for field {Text.quoted field}: {code}"
  | .unknownScalar type => some s!"Unexpected type: {type}"
  | .unresolvedType type scope field =>
    some s!"Unexpected type: {type.plain} (field {scope.plain}.{field.plain})"
  | .reservedName name =>
    some s!"Type name {name.plain} collides with a name used by generated code"
  | .methodName name => some s!"Nested type {name.plain} collides with a generated method"
  | .uncastableDefault literal field type =>
    some s!"Cannot cast default {Text.quoted literal} of field {field.display} to {type}"
  | .unexpectedDefault field type =>
    some s!"Unexpected type for default of field {field.display}: {type}"
  | .truncatedVarint => some "Truncated varint"
  | .overlongVarint => some "Expected varint not more than 10 bytes"
  | .truncatedFixed size pos => some s!"Truncated {size}-byte value at {pos}"
  | .truncatedBytes pos => some s!"Truncated length-delimited value at {pos}"
  | .truncatedField wireType pos => some s!"Truncated field of wire type {wireType} at {pos}"
  | .unknownWireType wireType => some s!"Unimplemented type: {wireType}"
  | .wrongType | .noMember | .badValue | .overflow | .invalidText | .unpackable | .unboundName
  | .missingKey | .noFile | .isDirectory | .notDirectory | .tooDeep => none

end Fault

end ProtoScribe
