import ProtoScribe.Scalar
import ProtoScribe.Schema.Basic

/-!
# Descriptors

A descriptor is the form in which a schema compiler hands on the files it has read. Of each file this
library keeps what a schema needs. Types of fields are numbered; message and enumeration fields name
their type with a leading dot and the package.
-/

namespace ProtoScribe

abbrev TypeCode := Nat

structure FieldDescriptor where
  name : String
  number : Int
  repeated : Bool
  type : TypeCode
  typeName : String
  defaultValue : Option String
  packed : Option Bool
deriving DecidableEq, Repr

/-- A described enumeration: symbols with numbers, a symbol possibly more than once. -/
structure EnumDescriptor where
  name : String
  values : List (String × Int)
deriving DecidableEq, Repr

structure MessageDescriptor where
  name : String
  fields : List FieldDescriptor
  enums : List EnumDescriptor
  messages : List MessageDescriptor
deriving Repr

structure FileDescriptor where
  name : String
  package : String
  version : String
  enums : List EnumDescriptor
  messages : List MessageDescriptor
deriving Repr

/-! ### Schemas from descriptors -/

def scalarOfCode? : TypeCode → Option Scalar
  | 1 => some .double
  | 2 => some .float
  | 3 => some .int64
  | 4 => some .uint64
  | 5 => some .int32
  | 6 => some .fixed64
  | 7 => some .fixed32
  | 8 => some .bool
  | 9 => some .string
  | 12 => some .bytes
  | 13 => some .uint32
  | 15 => some .sfixed32
  | 16 => some .sfixed64
  | 17 => some .sint32
  | 18 => some .sint64
  | _ => none

def messageCode : TypeCode := 11

def enumCode : TypeCode := 14

/-- A type name relative to a package: the package is taken off and the leading dot kept. A name
outside the package stays as it is. -/
def relativeTo (package typeName : String) : String :=
  let start := if package.isEmpty then ['.'] else '.' :: package.toList ++ ['.']
  if start.isPrefixOf typeName.toList then
    String.ofList ('.' :: typeName.toList.drop start.length)
  else typeName

namespace FieldDescriptor

/-- The type of a field, as a schema names it. -/
def typeOf (package : String) (f : FieldDescriptor) : Except Fault String :=
  match scalarOfCode? f.type with
  | some t => .ok t.keyword
  | none =>
    if f.type = messageCode ∨ f.type = enumCode then .ok (relativeTo package f.typeName)
    else .error (.unsupportedFieldType f.name f.type)

/-- The packed option of a field: the one that is set, or the one that repeated fields of packable
type have without asking in the newer version. -/
def packedOption (version : Version) (type : String) (f : FieldDescriptor) :
    List (String × String) :=
  match f.packed with
  | some b => [("packed", if b then "true" else "false")]
  | none =>
    let packable : Bool := match Scalar.ofKeyword? type with
      | some t => t.coding.packable
      | none => false
    if version = .proto3 ∧ f.repeated ∧ (f.type = enumCode ∨ packable) then [("packed", "true")]
    else []

def toField (package : String) (version : Version) (f : FieldDescriptor) : Except Fault Field := do
  let type ← f.typeOf package
  let default := match f.defaultValue with
    | some literal => [("default", literal)]
    | none => []
  return {
    name := .str f.name
    type := .str type
    tag := f.number
    repeated := f.repeated
    options := default ++ f.packedOption version type }

end FieldDescriptor

/-- The enumeration that a descriptor describes: a repeated symbol keeps its first place and takes its
last number. -/
def EnumDescriptor.toEnum (e : EnumDescriptor) : Enumeration where
  name := .str e.name
  values := e.values.foldl (fun acc (symbol, n) => putNamed acc symbol n) []

mutual

def MessageDescriptor.toMessage (package : String) (version : Version) :
    MessageDescriptor → Except Fault Message
  | ⟨name, fields, enums, messages⟩ => do
    let fields ← fields.mapM (·.toField package version)
    let messages ← MessageDescriptor.toMessages package version messages
    return { name := .str name, fields, enums := enums.map (·.toEnum), messages }

def MessageDescriptor.toMessages (package : String) (version : Version) :
    List MessageDescriptor → Except Fault (List Message)
  | [] => .ok []
  | m :: rest => do
    let m ← m.toMessage package version
    let ms ← MessageDescriptor.toMessages package version rest
    return m :: ms

end

def FileDescriptor.toSchema (f : FileDescriptor) : Except Fault Schema := do
  let version : Version := if f.version = "proto3" then .proto3 else .proto2
  let messages ← MessageDescriptor.toMessages f.package version f.messages
  return {
    version
    package := if f.package.isEmpty then .none else .str f.package
    enums := f.enums.map (·.toEnum)
    messages }

end ProtoScribe
