import ProtoScribe.Schema.Basic
import ProtoScribe.Text.Dotted
import ProtoScribe.Value.Conversion

/-!
# Scopes

The types of a schema form a tree: a message is a scope for the types declared inside it, and the
schema itself is the root. Every scope has a qualified name, its own name after the names of the
scopes around it.

A `Place` is a scope together with the scopes that enclose it. References are resolved from a place:
the whole path is matched in the scope itself, then in each enclosing scope, so that the innermost
complete match wins; a leading dot starts at the root. Of types declared twice under one name in one
scope, the later one is found.
-/

namespace ProtoScribe

inductive Kind
  | root
  | enumeration (values : List (String × Int))
  | message
deriving DecidableEq, Repr

/-- A type, or the root, with the types declared in it. -/
structure Scope where
  /-- The name in the enclosing scope. -/
  label : Value
  /-- The qualified name. -/
  name : Value
  /-- Whether the qualified name is the label alone. -/
  isTop : Bool
  kind : Kind
  fields : List Field
  children : List Scope
deriving Repr

namespace Scope

instance : Inhabited Scope := ⟨⟨.str "", .str "", false, .root, [], []⟩⟩

def isMessage (s : Scope) : Bool := s.kind = .message

/-! ### Building -/

/-- The qualified name of a type declared in a scope, and whether it stands alone. Inside a scope
whose own name counts as false it does. -/
def qualify (outer label : Value) : Value × Bool :=
  if outer.truthy then (.str (outer.plain ++ "." ++ label.plain), false) else (label, true)

/-- The scope of an enumeration. Names have to be usable as keys. -/
def ofEnum (outer : Value) (e : Enumeration) : Except Fault Scope :=
  if e.name.isKey then
    let qualified := qualify outer e.name
    .ok {
      label := e.name
      name := qualified.1
      isTop := qualified.2
      kind := .enumeration e.values
      fields := []
      children := [] }
  else .error .wrongType

mutual

/-- The scope of a message: enumerations come before messages. -/
def ofMessage (outer : Value) : Message → Except Fault Scope
  | ⟨label, fields, enums, messages⟩ =>
    if label.isKey then do
      let qualified := qualify outer label
      let enums ← enums.mapM (ofEnum qualified.1)
      let messages ← ofMessages qualified.1 messages
      return {
        label
        name := qualified.1
        isTop := qualified.2
        kind := .message
        fields
        children := enums ++ messages }
    else .error .wrongType

def ofMessages (outer : Value) : List Message → Except Fault (List Scope)
  | [] => .ok []
  | m :: rest => do
    let s ← ofMessage outer m
    let ss ← ofMessages outer rest
    return s :: ss

end

def ofSchema (s : Schema) : Except Fault Scope := do
  let enums ← s.enums.mapM (ofEnum (.str ""))
  let messages ← ofMessages (.str "") s.messages
  return {
    label := .str ""
    name := .str ""
    isTop := false
    kind := .root
    fields := []
    children := enums ++ messages }

/-- The last component of the qualified name, which has to be text. -/
def shortName (s : Scope) : Except Fault String := s.name.toText.map Text.lastComponent

def display (s : Scope) : String :=
  let name := if s.name.truthy then s.name else .str "<root>"
  "ScopeContext(" ++ name.display ++ ")"

/-- The type of a name declared directly in a scope, the last one of several. -/
def child? (s : Scope) (name : String) : Option Scope :=
  s.children.reverse.find? (·.label = .str name)

end Scope

/-- A scope with the scopes around it, innermost first. -/
structure Place where
  scope : Scope
  outer : List Scope
deriving Inhabited, Repr

namespace Place

def kind (p : Place) : Kind := p.scope.kind

/-- The place of a type that is declared at a place. -/
def inside (p : Place) (s : Scope) : Place := ⟨s, p.scope :: p.outer⟩

/-- The place of a scope and the places around it, innermost first. -/
def around (s : Scope) : List Scope → List Place
  | [] => [⟨s, []⟩]
  | o :: outer => ⟨s, o :: outer⟩ :: around o outer

def chain (p : Place) : List Place := around p.scope p.outer

def top (p : Place) : Place := p.chain.getLast?.getD p

def child? (p : Place) (name : String) : Option Place := (p.scope.child? name).map p.inside

/-- The type that a path of names leads to from a place. -/
def descend (p : Place) : List String → Option Place
  | [] => some p
  | name :: rest => (p.child? name).bind (·.descend rest)

/-- The type that a single name means: the innermost one declared under it. -/
def lookup (p : Place) (name : String) : Option Place := p.chain.findSome? (·.child? name)

def resolve (p : Place) (reference : String) : Option Place :=
  match reference.toList with
  | '.' :: rest => p.top.descend (Text.components (String.ofList rest))
  | _ => p.chain.findSome? (·.descend (Text.components reference))

end Place

namespace Scope

mutual

/-- A scope and all scopes below it, each before its children. -/
def places (outer : List Scope) : Scope → List Place
  | ⟨label, name, isTop, kind, fields, children⟩ =>
    let s : Scope := ⟨label, name, isTop, kind, fields, children⟩
    ⟨s, outer⟩ :: placesOf (s :: outer) children

def placesOf (outer : List Scope) : List Scope → List Place
  | [] => []
  | s :: rest => places outer s ++ placesOf outer rest

end

def walk (root : Scope) : List Place := root.places []

end Scope

end ProtoScribe
