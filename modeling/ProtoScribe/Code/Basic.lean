import ProtoScribe.Value

/-!
# Generated code

The part of Python that generated modules consist of: expressions, statements of functions, and the
declarations of a module. A module binds one dictionary for each enumeration and one class for each
message; a class holds static methods and the declarations of nested types.

Updates of a list inside a dictionary are statements of their own (`Stmt.append`, `Stmt.extend`),
because they change the dictionary in place.
-/

namespace ProtoScribe.Code

inductive Expr
  | name (id : String)
  | const (v : Value)
  /-- `object.id` -/
  | attr (object : Expr) (id : String)
  /-- `object[key]` -/
  | item (object : Expr) (key : Value)
  /-- `function(args)` -/
  | call (function : Expr) (args : List Expr)
  /-- `left + right` -/
  | sum (left right : Expr)
  /-- `left == right` -/
  | equal (left right : Expr)
  /-- `left != right` -/
  | differ (left right : Expr)
  /-- `e is not None` -/
  | isSet (e : Expr)
  /-- `left and right` -/
  | both (left right : Expr)
  /-- A dictionary with the given keys. -/
  | dict (entries : List (Value × Expr))
  /-- `[]` -/
  | emptyList
deriving Inhabited, Repr

inductive Stmt
  /-- Evaluates an expression for its effect. -/
  | eval (e : Expr)
  /-- `object[key] = value` -/
  | store (object : String) (key : Value) (value : Expr)
  /-- `object[key].append(value)` -/
  | append (object : String) (key : Value) (value : Expr)
  /-- `cursor.method(object[key], args)`, a call that extends the list it is given. -/
  | extend (cursor method object : String) (key : Value) (args : List Expr)
  /-- `return e` -/
  | give (e : Expr)
  /-- `if test: body else: otherwise` -/
  | branch (test : Expr) (body otherwise : List Stmt)
  /-- `for binder in source: body` -/
  | each (binder : String) (source : Expr) (body : List Stmt)
deriving Inhabited, Repr

/-- A static method: parameters, some of them with a value to take when no argument is given, and a
body. -/
structure Function where
  name : String
  params : List (String × Option Value)
  body : List Stmt
deriving Inhabited, Repr

inductive Decl
  /-- `name = {symbol: number, …}` -/
  | table (name : String) (values : List (String × Int))
  | method (f : Function)
  /-- `class name: members` -/
  | type (name : String) (members : List Decl)
  /-- `object.name = name` -/
  | publish (object name : String)
deriving Inhabited, Repr

end ProtoScribe.Code
