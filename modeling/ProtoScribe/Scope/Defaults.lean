import ProtoScribe.Scalar
import ProtoScribe.Scope.Basic

/-!
# Types and defaults of fields

`Place.target` says what the type of a field means where it is declared: a built-in type, an
enumeration or a message. `Schema.context` builds the scope tree of a schema and attaches to every
field the value it has when it is absent.
-/

namespace ProtoScribe

inductive Target
  | scalar (t : Scalar)
  | enumeration (p : Place)
  | message (p : Place)
deriving Inhabited, Repr

namespace Target

def place? : Target → Option Place
  | .scalar _ => none
  | .enumeration p | .message p => some p

def isMessage : Target → Bool
  | .message _ => true
  | .scalar _ | .enumeration _ => false

/-- The built-in type that values are encoded as; messages have none. -/
def scalar? : Target → Option Scalar
  | .scalar t => some t
  | .enumeration _ => some .enum
  | .message _ => none

/-- Whether many values may share one length-delimited field. -/
def packable (t : Target) : Bool :=
  match t.scalar? with
  | some s => s.coding.packable
  | none => false

end Target

namespace Place

/-- The meaning of the type of a field declared at a place. Declared types take precedence over
built-in ones. -/
def target (p : Place) (f : Field) : Except Fault Target := do
  let type ← f.type.toText
  match p.resolve type with
  | some q => match q.kind with
    | .enumeration _ => return .enumeration q
    | .message => return .message q
    | .root => throw (.unknownScalar q.scope.name.plain)
  | none => match Scalar.ofKeyword? type with
    | some t => return .scalar t
    | none => throw (.unresolvedType f.type p.scope.name f.name)

end Place

namespace Field

def packable (f : Field) (t : Target) : Bool := f.repeated && t.packable

def isPacked (f : Field) (t : Target) : Bool := f.packed && f.packable t

/-- The literal of the default that a field declares; the newer version has none. -/
def explicitDefault? (version : Version) (f : Field) : Option String :=
  match version with
  | .proto2 => f.option? "default"
  | .proto3 => none

/-- The value that a field of the type written as `type` has when it is absent. An unknown symbol of
an enumeration counts as zero. -/
def absentValue (version : Version) (p : Place) (f : Field) (type : String) : Except Fault Value :=
  match (p.resolve type).map Place.kind, f.explicitDefault? version with
  | some (.enumeration values), explicit =>
    .ok (.int ((explicit.bind fun symbol => values.lookup symbol).getD 0))
  | _, some literal => castDefault f.name type literal
  | _, none => .ok (((Scalar.ofKeyword? type).map Scalar.zeroValue).getD .none)

/-- The field with the value it has when absent. Repeated fields have no such value, but a literal
they declare has to denote one. -/
def withDefault (version : Version) (p : Place) (f : Field) : Except Fault Field := do
  let default ← f.absentValue version p (← f.type.toText)
  return { f with default := if f.repeated then .none else default }

end Field

namespace Scope

mutual

/-- The scope with the defaults of all fields attached, those of inner scopes first. -/
def attach (version : Version) (outer : List Scope) : Scope → Except Fault Scope
  | ⟨label, name, isTop, kind, fields, children⟩ => do
    let s : Scope := ⟨label, name, isTop, kind, fields, children⟩
    let children ← attachAll version (s :: outer) children
    let fields ← fields.mapM (·.withDefault version ⟨s, outer⟩)
    return { label, name, isTop, kind, fields, children }

def attachAll (version : Version) (outer : List Scope) : List Scope → Except Fault (List Scope)
  | [] => .ok []
  | s :: rest => do
    let s ← attach version outer s
    let ss ← attachAll version outer rest
    return s :: ss

end

end Scope

def Schema.context (s : Schema) : Except Fault Scope := do
  (← Scope.ofSchema s).attach s.version []

end ProtoScribe
