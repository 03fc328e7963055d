import ProtoScribe.Descriptor.Decode
import ProtoScribe.Path
import ProtoScribe.Schema.Description

/-!
# Schema files

A schema file holds a description as JSON text, or, when its name says so, a descriptor set.
-/

namespace ProtoScribe

/-- The endings of the names of descriptor sets, whatever their case. -/
def descriptorSuffixes : List String := [".desc", ".pb", ".binpb"]

def isDescriptorPath (path : String) : Bool :=
  String.ofList ((Path.suffix path).toList.map Char.toLower) ∈ descriptorSuffixes

/-- Text with every kind of line break as a single character. -/
def joinLineBreaks : List Char → List Char
  | '\r' :: '\n' :: rest => '\n' :: joinLineBreaks rest
  | '\r' :: rest => '\n' :: joinLineBreaks rest
  | c :: rest => c :: joinLineBreaks rest
  | [] => []

def descriptionOf (path : String) (content : List UInt8) : Except Fault Value := do
  let text ← Cursor.decodeText content
  match Json.parse (String.ofList (joinLineBreaks text.toList)) with
  | .ok v => return v
  | .error .tooManyDigits => throw .badValue
  | .error (.malformed reason line column offset) =>
    throw (.invalidJson (Path.normal path) reason line column offset)

def Schema.ofFile (path : String) (content : List UInt8) : Except Fault Schema :=
  if isDescriptorPath path then Schema.ofDescriptorSet content none
  else do Schema.ofValue (← descriptionOf path content)

end ProtoScribe
