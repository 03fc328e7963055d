import ProtoScribe.Code.Basic
import ProtoScribe.Cursor.Method

/-!
# Objects of running code

What the names of a running module are bound to: values, the types it declares, their functions, the
cursor and its operations. Objects are immutable; a function that changes the dictionary it was given
leaves the changed dictionary in its own bindings.
-/

namespace ProtoScribe.Code

inductive Object
  | value (v : Value)
  | cursor
  /-- The object that top-level types are published on. -/
  | exports
  | type (members : List (String × Object))
  | function (f : Function)
  /-- An operation of the cursor. -/
  | method (m : Cursor.Method)
  /-- The cursor's reader of fields, which takes a function for a single field. -/
  | fieldReader
  /-- The cursor's writer of embedded messages, which takes a function for the content. -/
  | messageWriter
  /-- The look-up in a dictionary that yields nothing when there is no entry. -/
  | getter (entries : List (Value × Value))
deriving Inhabited, Repr

/-- Names with what they are bound to, in the order in which they were bound first. -/
abbrev Bindings := List (String × Object)

/-- Binds a name. A name that was bound before keeps its place. -/
def assign (bindings : Bindings) (name : String) (o : Object) : Bindings :=
  match bindings with
  | [] => [(name, o)]
  | (n, old) :: rest => if n = name then (n, o) :: rest else (n, old) :: assign rest name o

namespace Object

def toValue : Object → Except Fault Value
  | .value v => .ok v
  | _ => .error .wrongType

def truthy : Object → Bool
  | .value v => v.truthy
  | _ => true

def member (o : Object) (id : String) : Run Object :=
  match o with
  | .type members => match members.lookup id with
    | some o => pure o
    | none => throw .noMember
  | .cursor =>
    if id = "pos" then do return .value (.int (← get).pos)
    else if id = "read_fields" then pure .fieldReader
    else if id = "write_message" then pure .messageWriter
    else match Cursor.Method.ofName? id with
      | some m => pure (.method m)
      | none => throw .noMember
  | .value (.dict entries) => if id = "get" then pure (.getter entries) else throw .noMember
  | _ => throw .noMember

def item (o : Object) (key : Value) : Except Fault Value :=
  match o with
  | .value (.dict entries) => match Value.find? entries key with
    | some v => .ok v
    | none => .error .missingKey
  | _ => .error .wrongType

def withItem (o : Object) (key v : Value) : Except Fault Object :=
  match o with
  | .value (.dict entries) => .ok (.value (.dict (Value.put entries key v)))
  | _ => .error .wrongType

end Object

end ProtoScribe.Code
