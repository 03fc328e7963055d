import ProtoScribe.Code.Emit
import ProtoScribe.Code.Run

/-!
# Loaded modules

Loading a module checks its text for what cannot stand in it, and then binds its types. The types
that it publishes are found by dotted paths, and their functions read and write messages.
-/

namespace ProtoScribe.Code

/-! ### Validity

Keywords for constants cannot be used as names, and lists and dictionaries cannot be constants. Of
several faults the first in evaluation order counts, except that a comparison is checked from the
right, a subscript before what it belongs to, and the keys of a dictionary before its values. -/

/-- The words that stand for constants. -/
def constantNames : List String := ["None", "True", "False"]

def checkName (id : String) : Except Fault Unit :=
  if id ∈ constantNames then .error .badValue else .ok ()

def checkConstant (v : Value) : Except Fault Unit :=
  if v.isKey then .ok () else .error .wrongType

mutual

def Expr.check : Expr → Except Fault Unit
  | .name id => checkName id
  | .const v => checkConstant v
  | .attr object _ => object.check
  | .item object key => do
    checkConstant key
    object.check
  | .call function args => do
    function.check
    checkExprs args
  | .sum left right | .both left right => do
    left.check
    right.check
  | .equal left right | .differ left right => do
    right.check
    left.check
  | .isSet e => e.check
  | .dict entries => do
    entries.forM fun (key, _) => checkConstant key
    checkEntries entries
  | .emptyList => .ok ()

def checkExprs : List Expr → Except Fault Unit
  | [] => .ok ()
  | e :: rest => do
    e.check
    checkExprs rest

def checkEntries : List (Value × Expr) → Except Fault Unit
  | [] => .ok ()
  | (_, e) :: rest => do
    e.check
    checkEntries rest

end

mutual

def Stmt.check : Stmt → Except Fault Unit
  | .eval e | .give e => e.check
  | .store object key value | .append object key value => do
    (Expr.item (.name object) key).check
    value.check
  | .extend cursor _ object key args => do
    checkName cursor
    (Expr.item (.name object) key).check
    checkExprs args
  | .branch test body otherwise => do
    test.check
    checkStmts body
    checkStmts otherwise
  | .each binder source body => do
    checkName binder
    source.check
    checkStmts body

def checkStmts : List Stmt → Except Fault Unit
  | [] => .ok ()
  | s :: rest => do
    s.check
    checkStmts rest

end

mutual

def Decl.check : Decl → Except Fault Unit
  | .table name _ => checkName name
  | .method f => checkStmts f.body
  | .type _ members => checkDecls members
  | .publish object name => do
    checkName object
    checkName name

def checkDecls : List Decl → Except Fault Unit
  | [] => .ok ()
  | d :: rest => do
    d.check
    checkDecls rest

end

/-! ### Loading -/

mutual

/-- Binds what a declaration declares. A type cannot have a name with a NUL in it. -/
def Decl.bind (bindings : Bindings) : Decl → Except Fault Bindings
  | .table name values =>
    let entries := values.map fun (symbol, n) => (Value.str symbol, Value.int n)
    .ok (assign bindings name (.value (Value.ofEntries entries)))
  | .method f => .ok (assign bindings f.name (.function f))
  | .type name members => do
    let members ← bindAll [] members
    if '\x00' ∈ name.toList then throw .badValue
    return assign bindings name (.type members)
  | .publish _ _ => .ok bindings

def bindAll (bindings : Bindings) : List Decl → Except Fault Bindings
  | [] => .ok bindings
  | d :: rest => do bindAll (← d.bind bindings) rest

end

/-- The names of a loaded module, and those it publishes. -/
structure Module where
  globals : Bindings
  exported : Bindings
deriving Inhabited

namespace Module

/-- Adds a declaration. Publishing binds a name on the object that exports. -/
def declare (m : Module) : Decl → Except Fault Module
  | .publish object name =>
    match m.globals.lookup name, m.globals.lookup object with
    | some o, some .exports => .ok { m with exported := assign m.exported name o }
    | some _, some _ => .error .noMember
    | _, _ => .error .unboundName
  | d => do return { m with globals := ← d.bind m.globals }

def exportsName : String := "exports"

def load (decls : List Decl) : Except Fault Module := do
  checkDecls decls
  decls.foldlM declare ⟨[(exportsName, .exports)], []⟩

def ofSchema (s : Schema) (options : Options) : Except Fault Module := do
  load (← s.code options (some exportsName))

/-! ### Types and functions -/

def find? (bindings : Bindings) : List String → Option Object
  | [] => none
  | [name] => bindings.lookup name
  | name :: rest => match bindings.lookup name with
    | some (.type members) => find? members rest
    | _ => none

def function (m : Module) (path name : String) : Except Fault Function :=
  match find? m.exported (Text.components path) with
  | some (.type members) => match members.lookup name with
    | some (.function f) => .ok f
    | _ => .error .noMember
  | _ => .error .noMember

/-- Reads a message of the type at a path, up to a position; calls may nest up to the given depth. -/
def readWithin (m : Module) (depth : Nat) (path : String) (stop : Value) : Run Value := do
  let f ← Cursor.lift (m.function path "read")
  let exit ← invoke m.globals depth f [.cursor, .value stop]
  Cursor.lift exit.result.toValue

/-- Reads a message of the type at a path, up to a position. Every embedded message takes at least
two bytes and two calls. -/
def read (m : Module) (path : String) (stop : Value) : Run Value := do
  m.readWithin (2 * (← get).rest.length + 2) path stop

/-- Reads fields into a message, by the function that stores a field of the type at a path. -/
def readInto (m : Module) (path : String) (stop message : Value) : Run Value := do
  let f ← Cursor.lift (m.function path "_read_field")
  let depth := 2 * (← get).rest.length + 1
  Cursor.readFields (onField (invoke m.globals depth) f) stop message

/-- Writes a message of the type at a path. Calls nest no deeper than the message does. -/
def write (m : Module) (path : String) (message : Value) : Run Unit := do
  let f ← Cursor.lift (m.function path "write")
  discard (invoke m.globals (message.depth + 2) f [.value message, .cursor])

def writeAll (m : Module) (path : String) (messages : List Value) : Run Unit := do
  discard (Cursor.lift (m.function path "write"))
  messages.forM (m.write path)

end Module

end ProtoScribe.Code
