import ProtoScribe.Scope.Defaults

/-!
# Trees in text

A tree is drawn with one row for each node, below its parent and with guides that lead to it. The
scope tree of a schema has a row for each type, each symbol of an enumeration and each field.
-/

namespace ProtoScribe

inductive Tree
  | node (label : String) (children : List Tree)
deriving Inhabited, Repr

namespace Tree

/-! ### Labels -/

/-- Characters that would move the output position: bell, backspace, vertical tab, form feed and
carriage return. They are left out of labels. -/
def isDropped (c : Char) : Bool := c.toNat ∈ [7, 8, 11, 12, 13]

def tabWidth : Nat := 8

def toTabStop (column : Nat) : Nat := tabWidth - column % tabWidth

/-- A line with its tabs as spaces, starting at a column. -/
def expandTabs (column : Nat) : List Char → List Char
  | [] => []
  | c :: rest =>
    if c = '\t' then
      List.replicate (toTabStop column) ' ' ++ expandTabs (column + toTabStop column) rest
    else c :: expandTabs (column + 1) rest

def labelLines (label : String) : List String :=
  let kept := String.ofList (label.toList.filter (!isDropped ·))
  (kept.splitOn "\n").map fun line => String.ofList (expandTabs 0 line.toList)

/-! ### Drawing -/

/-- Lines with one guide before the first and another before the others. -/
def guided (first others : String) : List String → List String
  | [] => []
  | line :: lines => (first ++ line) :: lines.map (others ++ ·)

mutual

def draw : Tree → List String
  | .node label children => labelLines label ++ drawAll children

/-- The lines of the children of a node: a guide leads past each child to the next one. -/
def drawAll : List Tree → List String
  | [] => []
  | t :: rest =>
    if rest.isEmpty then guided "└── " "    " t.draw
    else guided "├── " "│   " t.draw ++ drawAll rest

end

def render (t : Tree) : String := String.join (t.draw.map (· ++ "\n"))

end Tree

/-! ### Scopes -/

/-- Text aligned to the right in three columns. -/
def alignTag (tag : Int) : String :=
  let digits := toString tag
  String.ofList (List.replicate (3 - digits.length) ' ') ++ digits

def labelText : Value → Except Fault String
  | .str s => .ok s
  | _ => .error .wrongType

/-- The row of a field: tag, name, type, the type it refers to under another name, packing and
default. -/
def fieldRow (p : Place) (f : Field) : Except Fault Tree := do
  let t ← p.target f
  let name ← labelText f.name
  let reference := match t.place? with
    | some q => if q.scope.name = f.type then "" else " -> " ++ q.scope.name.plain
    | none => ""
  let default := if f.default = .none then "" else " = " ++ f.default.display
  return .node (alignTag f.tag ++ " " ++ name ++ ": " ++ (if f.repeated then "repeated " else "") ++
    f.type.plain ++ reference ++ (if f.isPacked t then " [packed]" else "") ++ default) []

mutual

/-- The rows of a type: fields come before nested types. -/
def scopeRow (outer : List Scope) : Scope → Except Fault Tree
  | ⟨label, name, isTop, kind, fields, children⟩ => do
    let s : Scope := ⟨label, name, isTop, kind, fields, children⟩
    let title ← labelText name
    match kind with
    | .enumeration values =>
      return .node ("enum " ++ title) (values.map fun (symbol, n) => .node s!"{symbol} = {n}" [])
    | .root | .message =>
      let fields ← fields.mapM (fieldRow ⟨s, outer⟩)
      let nested ← scopeRows (s :: outer) children
      return .node ("message " ++ title) (fields ++ nested)

def scopeRows (outer : List Scope) : List Scope → Except Fault (List Tree)
  | [] => .ok []
  | s :: rest => do
    let row ← scopeRow outer s
    let rows ← scopeRows outer rest
    return row :: rows

end

def contextTree (title : String) (root : Scope) : Except Fault Tree := do
  return .node title (← scopeRows [root] root.children)

end ProtoScribe
