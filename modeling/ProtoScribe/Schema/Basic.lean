import ProtoScribe.Value

/-!
# Schemas

A schema declares enumerations and messages; messages have fields and may declare further types.
Descriptions are not checked when they are loaded, so the names and types of declarations may be any
value. Options are kept as the literals that would stand in a schema's source.
-/

namespace ProtoScribe

inductive Version
  | proto2
  | proto3
deriving DecidableEq, Repr

def Version.number : Version → Nat
  | .proto2 => 2
  | .proto3 => 3

structure Field where
  name : Value
  type : Value
  tag : Int
  repeated : Bool := false
  options : List (String × String) := []
  /-- The value of the field when it is absent from a message; nothing when it has no such value. -/
  default : Value := .none
deriving DecidableEq, Repr

namespace Field

def option? (f : Field) (key : String) : Option String := f.options.lookup key

/-- Whether the field asks for the packed encoding. -/
def packed (f : Field) : Bool :=
  f.repeated && match f.option? "packed" with
    | some literal => literal.toList.map Char.toLower = "true".toList
    | none => false

end Field

/-- An enumeration: its symbols with their numbers, in order. -/
structure Enumeration where
  name : Value
  values : List (String × Int)
deriving DecidableEq, Repr

structure Message where
  name : Value
  fields : List Field
  enums : List Enumeration
  messages : List Message
deriving Repr

structure Schema where
  version : Version
  package : Value
  enums : List Enumeration
  messages : List Message
deriving Repr

/-- Puts a value under a name: in place of the old one, or at the end. -/
def putNamed {α : Type} (entries : List (String × α)) (name : String) (a : α) : List (String × α) :=
  match entries with
  | [] => [(name, a)]
  | (n, b) :: rest => if n = name then (n, a) :: rest else (n, b) :: putNamed rest name a

end ProtoScribe
