import ProtoScribe.Code.Basic
import ProtoScribe.Scope.Defaults

/-!
# Emitting code

The code of a message is a class with a `read` function, which starts from the defaults and hands every
field to `_read_field`, that function, which stores one field by its tag, and a `write` function, which
writes every field that is present. Types are referred to by their qualified names, from the globals of
the module.

Names that generated functions use for themselves cannot be the names of top-level types, and the
names of the three functions cannot be those of nested types.
-/

namespace ProtoScribe.Code

/-! ### Names -/

def objName : String := "_obj"

def cursorName : String := "_pbf"

def itemName : String := "_item"

def tagName : String := "_tag"

def endName : String := "_end"

def localNames : List String := [objName, cursorName, itemName, tagName, endName]

def methodNames : List String := ["read", "_read_field", "write"]

/-! ### Expressions -/

/-- A type by its qualified name. -/
def path (name : String) : Expr :=
  match Text.components name with
  | head :: rest => rest.foldl .attr (.name head)
  | [] => .name name

def cursorCall (method : String) (args : List Expr) : Expr :=
  .call (.attr (.name cursorName) method) args

def entry (f : Field) : Expr := .item (.name objName) f.name

def entryOrNone (f : Field) : Expr := .call (.attr (.name objName) "get") [.const f.name]

/-- The argument that asks for signed numbers. -/
def signedArgs (t : Scalar) : List Expr := if t.signed then [.const (.bool true)] else []

/-! ### Reading -/

/-- The value that the reader starts from: empty lists and defaults. -/
def initial (fields : List Field) : Expr :=
  .dict (fields.filterMap fun f =>
    if f.repeated then some (f.name, .emptyList)
    else if f.default = .none then none
    else some (f.name, .const f.default))

def readValue (t : Target) : Except Fault Expr :=
  match t with
  | .message p => do
    let size := cursorCall (Cursor.Method.read .varint).name []
    let stop := .sum size (.attr (.name cursorName) "pos")
    return .call (.attr (path (← p.scope.name.toText)) "read") [.name cursorName, stop]
  | .enumeration _ => .ok (cursorCall (Scalar.enum.reader false).name (signedArgs .enum))
  | .scalar s => .ok (cursorCall (s.reader false).name (signedArgs s))

/-- Stores a value of a field. Both encodings of a packable repeated field are accepted. -/
def readStatement (p : Place) (f : Field) : Except Fault Stmt := do
  let t ← p.target f
  match (if f.packable t then t.scalar? else none) with
  | some s => return .extend cursorName (s.reader true).name objName f.name (signedArgs s)
  | none =>
    let value ← readValue t
    return if f.repeated then .append objName f.name value else .store objName f.name value

/-- Chooses the field by its tag; of two fields with one tag the first is chosen. -/
def readChain (p : Place) : List Field → Except Fault (List Stmt)
  | [] => .ok []
  | f :: rest => do
    let otherwise ← readChain p rest
    let body ← readStatement p f
    return [.branch (.equal (.name tagName) (.const (.int f.tag))) [body] otherwise]

/-- The function that reads a message: it hands every field to the class's function for a field. -/
def readFunction (name : String) (fields : List Field) : Function :=
  let onField := Expr.attr (path name) "_read_field"
  { name := "read"
    params := [(cursorName, none), (endName, some .none)]
    body := [.give (cursorCall "read_fields" [onField, initial fields, .name endName])] }

def fieldFunction (chain : List Stmt) : Function where
  name := "_read_field"
  params := [(tagName, none), (objName, none), (cursorName, none)]
  body := chain

def readers (p : Place) : Except Fault (List Decl) := do
  let name ← p.scope.name.toText
  let chain ← readChain p p.scope.fields
  return [.method (readFunction name p.scope.fields), .method (fieldFunction chain)]

/-! ### Writing -/

def writeCall (f : Field) (t : Target) (value : Expr) : Except Fault Expr :=
  match t with
  | .message p => do
    let writer := Expr.attr (path (← p.scope.name.toText)) "write"
    return cursorCall "write_message" [.const (.int f.tag), writer, value]
  | .enumeration _ =>
    .ok (cursorCall (Scalar.enum.writer (f.isPacked t)).name [.const (.int f.tag), value])
  | .scalar s => .ok (cursorCall (s.writer (f.isPacked t)).name [.const (.int f.tag), value])

/-- Whether a field that is not repeated is written: messages and fields without default when they are
set, others when they differ from the default; what counts as false need not be told from a default
that does. -/
def presence (f : Field) (t : Target) : Expr :=
  let value := entryOrNone f
  if t.isMessage ∨ f.default = .none then .isSet value
  else if !f.default.truthy then value
  else .both (.isSet value) (.differ (entry f) (.const f.default))

def writeStatement (p : Place) (f : Field) : Except Fault Stmt := do
  let t ← p.target f
  if f.repeated then
    if f.isPacked t then
      return .branch (entryOrNone f) [.eval (← writeCall f t (entry f))] []
    else
      let body := Stmt.eval (← writeCall f t (.name itemName))
      return .branch (entryOrNone f) [.each itemName (entry f) [body]] []
  else return .branch (presence f t) [.eval (← writeCall f t (entry f))] []

def writeFunction (body : List Stmt) : Function where
  name := "write"
  params := [(objName, none), (cursorName, none)]
  body := body

def writers (p : Place) : Except Fault (List Decl) := do
  let body ← p.scope.fields.mapM (writeStatement p)
  return [.method (writeFunction body)]

/-! ### Declarations -/

structure Options where
  noRead : Bool := false
  noWrite : Bool := false
deriving DecidableEq, Repr

def omitIf (omitted : Bool) (ds : Except Fault (List Decl)) : Except Fault (List Decl) :=
  if omitted then .ok [] else ds

def methods (options : Options) (p : Place) : Except Fault (List Decl) := do
  let reading ← omitIf options.noRead (readers p)
  let writing ← omitIf options.noWrite (writers p)
  return reading ++ writing

/-- Checks that a nested type has no name of a generated function. -/
def checkNested (s : Scope) : Except Fault Unit := do
  if (← s.shortName) ∈ methodNames then throw (.methodName s.name)

mutual

def declare (options : Options) (outer : List Scope) : Scope → Except Fault Decl
  | ⟨label, name, isTop, kind, fields, children⟩ =>
    let s : Scope := ⟨label, name, isTop, kind, fields, children⟩
    match kind with
    | .enumeration values => do return .table (← s.shortName) values
    | .root | .message => do
      let own ← methods options ⟨s, outer⟩
      let nested ← declareNested options (s :: outer) children
      return .type (← s.shortName) (own ++ nested)

def declareNested (options : Options) (outer : List Scope) : List Scope → Except Fault (List Decl)
  | [] => .ok []
  | s :: rest => do
    checkNested s
    let d ← declare options outer s
    let ds ← declareNested options outer rest
    return d :: ds

end

def reservedNames (exports : Option String) : List String :=
  localNames ++ ["staticmethod"] ++ exports.toList

def checkTop (exports : Option String) (s : Scope) : Except Fault Unit :=
  if (reservedNames exports).any (s.name = .str ·) then .error (.reservedName s.name) else .ok ()

/-- The declarations of top-level types, each followed by its binding on the object that exports
it. -/
def declareTop (options : Options) (exports : Option String) (outer : List Scope) :
    List Scope → Except Fault (List Decl)
  | [] => .ok []
  | s :: rest => do
    checkTop exports s
    let d ← declare options outer s
    let published ← match exports with
      | some object => do pure [Decl.publish object (← s.name.toText)]
      | none => pure []
    let ds ← declareTop options exports outer rest
    return d :: published ++ ds

def ofContext (options : Options) (exports : Option String) (root : Scope) :
    Except Fault (List Decl) :=
  declareTop options exports [root] root.children

end ProtoScribe.Code

namespace ProtoScribe

def Schema.code (s : Schema) (options : Code.Options) (exports : Option String) :
    Except Fault (List Code.Decl) := do
  Code.ofContext options exports (← s.context)

end ProtoScribe
