import ProtoScribe.Descriptor.Basic

/-!
# Descriptions of described files

A file that a descriptor describes can also be described by a dictionary, as schemas are that are written
by hand: the same version, package, enumerations, messages and fields in the same order, with those
options that the descriptor sets. Such a description has no name for the type of a group.
-/

namespace ProtoScribe

/-- A dictionary with texts as keys. -/
def Value.record (entries : List (String × Value)) : Value :=
  .dict (entries.map fun entry => (.str entry.1, entry.2))

namespace FieldDescriptor

/-- Whether the type of a field can be described: it is built in, or named in full. -/
def isPlain (d : FieldDescriptor) : Bool :=
  (scalarOfCode? d.type).isSome ||
    ((d.type = messageCode || d.type = enumCode) && ['.'].isPrefixOf d.typeName.toList)

def describeType (package : String) (d : FieldDescriptor) : String :=
  match scalarOfCode? d.type with
  | some t => t.keyword
  | none => relativeTo package d.typeName

def describeOptions (d : FieldDescriptor) : List (String × Value) :=
  (d.defaultValue.map fun literal => ("default", .str literal)).toList ++
    (d.packed.map fun b => ("packed", .bool b)).toList

def describe (package : String) (d : FieldDescriptor) : Value :=
  .record [
    ("name", .str d.name),
    ("type", .str (d.describeType package)),
    ("tag", .int d.number),
    ("repeated", .bool d.repeated),
    ("options", .record d.describeOptions)]

end FieldDescriptor

def EnumDescriptor.describe (e : EnumDescriptor) : Value :=
  .record [
    ("name", .str e.name),
    ("values", .ofEntries (e.values.map fun entry => (.str entry.1, .int entry.2)))]

mutual

/-- Whether the types of all fields of a message, and of the messages in it, can be described. -/
def MessageDescriptor.isPlain : MessageDescriptor → Bool
  | ⟨_, fields, _, messages⟩ => fields.all (·.isPlain) && MessageDescriptor.arePlain messages

/-- Whether the types of all fields of some messages can be described. -/
def MessageDescriptor.arePlain : List MessageDescriptor → Bool
  | [] => true
  | m :: rest => m.isPlain && MessageDescriptor.arePlain rest

end

mutual

def MessageDescriptor.describe (package : String) : MessageDescriptor → Value
  | ⟨name, fields, enums, messages⟩ =>
    .record [
      ("name", .str name),
      ("fields", .list (fields.map (·.describe package))),
      ("enums", .list (enums.map (·.describe))),
      ("messages", .list (MessageDescriptor.describeAll package messages))]

def MessageDescriptor.describeAll (package : String) : List MessageDescriptor → List Value
  | [] => []
  | m :: rest => m.describe package :: MessageDescriptor.describeAll package rest

end

def FileDescriptor.isPlain (f : FileDescriptor) : Bool := MessageDescriptor.arePlain f.messages

def FileDescriptor.describe (f : FileDescriptor) : Value :=
  .record [
    ("syntax", .str (if f.version = "proto3" then "proto3" else "proto2")),
    ("package", .str f.package),
    ("enums", .list (f.enums.map (·.describe))),
    ("messages", .list (MessageDescriptor.describeAll f.package f.messages))]

end ProtoScribe
