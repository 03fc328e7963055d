import ProtoScribe.Schema.Basic
import ProtoScribe.Value.Conversion

/-!
# Schemas from descriptions

A schema can be described by a dictionary: an optional version and package, and lists of enumerations
and messages, which are dictionaries again. `Schema.ofValue` loads such a description.

An entry that is missing or counts as false stands for the empty list. Otherwise it is iterated over,
whatever it is, and each item has to be a description; text in the place of a description is searched
for the key it should have.
-/

namespace ProtoScribe

def containsText (part : List Char) : List Char → Bool
  | [] => part.isEmpty
  | c :: cs => part.isPrefixOf (c :: cs) || containsText part cs

namespace Description

def get? (entries : List (Value × Value)) (key : String) : Option Value :=
  Value.find? entries (.str key)

/-- Whether something in the place of a declaration has a name: a dictionary has it as a key, a list
as an item and a text as a part. -/
def hasName : Value → Except Fault Bool
  | .dict entries => .ok (get? entries "name").isSome
  | .list items => .ok (items.any (·.equals (.str "name")))
  | .str s => .ok (containsText "name".toList s.toList)
  | .none | .bool _ | .int _ | .float _ | .bytes _ => .error .wrongType

def items : Option Value → Except Fault (List Value)
  | none => .ok []
  | some v =>
    if !v.truthy then .ok []
    else match v.items? with
      | some vs => .ok vs
      | none => .error .wrongType

def entries : Option Value → Except Fault (List (Value × Value))
  | none => .ok []
  | some v =>
    if !v.truthy then .ok []
    else match v with
      | .dict es => .ok es
      | _ => .error .noMember

def versionOf (v : Value) : Except Fault Version :=
  if [.none, .int 2, .str "2", .str "proto2"].any v.equals then .ok .proto2
  else if [.int 3, .str "3", .str "proto3"].any v.equals then .ok .proto3
  else .error (.unsupportedVersion v)

/-- An option as it would be written in the source of a schema. -/
def literalOf : Value → String
  | .bool b => if b then "true" else "false"
  | v => v.plain

/-- Adds the packed option that repeated fields have without asking in the newer version, except
those of text and bytes. It has no effect on message types, which are not told apart here. -/
def withPackedDefault (version : Version) (repeated : Bool) (type : Value)
    (options : List (String × String)) : Except Fault (List (String × String)) :=
  if version = .proto3 ∧ repeated ∧ (options.lookup "packed").isNone then
    if !type.isKey then .error .wrongType
    else if type = .str "string" ∨ type = .str "bytes" then .ok options
    else .ok (options ++ [("packed", "true")])
  else .ok options

def fieldOf (version : Version) (data : Value) : Except Fault Field :=
  match data with
  | .dict es => do
    let need (key : String) : Except Fault Value :=
      match get? es key with
      | some v => .ok v
      | none => .error (.missingEntry ((get? es "name").getD (.str "<unnamed>")) key)
    let name ← need "name"
    let type ← need "type"
    let tag ← (← need "tag").toInteger
    let repeated := ((get? es "repeated").getD .none).truthy
    let given := (← entries (get? es "options")).map fun (k, v) => (k.plain, literalOf v)
    let options ← withPackedDefault version repeated type given
    return { name, type, tag, repeated, options }
  | _ => .error .wrongType

/-- The number of an enumeration symbol, given directly or as the `value` of a dictionary. -/
def symbolOf (enum : Value) (symbol : String) (v : Value) : Except Fault (String × Int) :=
  let number := match v with
    | .dict es => (get? es "value").getD .none
    | other => other
  match number with
  | .int n => .ok (symbol, n)
  | _ => .error (.enumValueNotInteger enum symbol)

def enumOf (data : Value) : Except Fault Enumeration := do
  if !(← hasName data) then throw .unnamedEnum
  match data with
  | .dict es =>
    let name := (get? es "name").getD .none
    let values ← (← entries (get? es "values")).mapM fun (k, v) => symbolOf name k.plain v
    return { name, values }
  | _ => throw .noMember

mutual

def messageOf (version : Version) : Value → Except Fault Message
  | .dict es =>
    match get? es "name" with
    | none => .error .unnamedMessage
    | some name => do
      let fields ← (← items (get? es "fields")).mapM (fieldOf version)
      let enums ← (← items (get? es "enums")).mapM enumOf
      let messages ← nestedOf version es
      return { name, fields, enums, messages }
  | v => do
    if !(← hasName v) then throw .unnamedMessage
    throw .wrongType

/-- The messages under the key `messages` of a dictionary. -/
def nestedOf (version : Version) : List (Value × Value) → Except Fault (List Message)
  | [] => .ok []
  | (k, v) :: rest => if k = .str "messages" then messagesOf version v else nestedOf version rest

/-- The messages that iterating over a value yields. A single character is no name, so a text yields
none. -/
def messagesOf (version : Version) : Value → Except Fault (List Message)
  | .list vs => messagesOfItems version vs
  | .dict es => messagesOfKeys version es
  | .str s => if s.isEmpty then .ok [] else .error .unnamedMessage
  | v => if v.truthy then .error .wrongType else .ok []

def messagesOfItems (version : Version) : List Value → Except Fault (List Message)
  | [] => .ok []
  | v :: rest => do
    let m ← messageOf version v
    let ms ← messagesOfItems version rest
    return m :: ms

def messagesOfKeys (version : Version) : List (Value × Value) → Except Fault (List Message)
  | [] => .ok []
  | (k, _) :: rest => do
    let m ← messageOf version k
    let ms ← messagesOfKeys version rest
    return m :: ms

end

end Description

def Schema.ofValue (data : Value) : Except Fault Schema :=
  match data with
  | .dict es => do
    let version ← Description.versionOf ((Description.get? es "syntax").getD .none)
    let package := (Description.get? es "package").getD .none
    let enums ← (← Description.items (Description.get? es "enums")).mapM Description.enumOf
    let messages ← Description.nestedOf version es
    return { version, package, enums, messages }
  | v => .error (.notMapping v)

end ProtoScribe
