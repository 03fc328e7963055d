import ProtoScribe.Code.Basic
import ProtoScribe.Value.Display

/-!
# Printing code

The source text of generated code: four spaces for each level, a blank line before every class and
every method except at the start of the text, `pass` for an empty body. Names are printed as they are.
-/

namespace ProtoScribe.Code

def header : String := "# Code generated by pbfgen. DO NOT EDIT."

/-- A decimal that reads back as infinity. -/
def overflowing : String := "1e309"

/-- A constant. Source text has no words for infinity and NaN, so they are written as expressions. -/
def constant : Value → String
  | .float x =>
    if x.isNaN then s!"({overflowing}-{overflowing})"
    else if x.isInfinite then (if x.negative then "-" else "") ++ overflowing
    else Value.display (.float x)
  | v => v.display

mutual

def Expr.print : Expr → String
  | .name id => id
  | .const v => constant v
  | .attr object id => object.print ++ "." ++ id
  | .item object key => object.print ++ "[" ++ constant key ++ "]"
  | .call function args => function.print ++ "(" ++ ", ".intercalate (printAll args) ++ ")"
  | .sum left right => left.print ++ " + " ++ right.print
  | .equal left right => left.print ++ " == " ++ right.print
  | .differ left right => left.print ++ " != " ++ right.print
  | .isSet e => e.print ++ " is not None"
  | .both left right => left.print ++ " and " ++ right.print
  | .dict entries => "\x7b" ++ ", ".intercalate (printEntries entries) ++ "\x7d"
  | .emptyList => "[]"

def printAll : List Expr → List String
  | [] => []
  | e :: rest => e.print :: printAll rest

def printEntries : List (Value × Expr) → List String
  | [] => []
  | (key, e) :: rest => (constant key ++ ": " ++ e.print) :: printEntries rest

end

def line (level : Nat) (text : String) : String :=
  String.ofList (List.replicate (4 * level) ' ') ++ text

/-- A body, which is never empty. -/
def orPass (level : Nat) (body : List String) : List String :=
  if body.isEmpty then [line level "pass"] else body

mutual

/-- The lines of a statement; a choice starts with the given word. -/
def Stmt.print (level : Nat) (word : String) : Stmt → List String
  | .eval e => [line level e.print]
  | .store object key value =>
    [line level ((Expr.item (.name object) key).print ++ " = " ++ value.print)]
  | .append object key value =>
    [line level ((Expr.item (.name object) key).print ++ ".append(" ++ value.print ++ ")")]
  | .extend cursor method object key args =>
    let call := Expr.call (.attr (.name cursor) method) (.item (.name object) key :: args)
    [line level call.print]
  | .give e => [line level ("return " ++ e.print)]
  | .branch test body otherwise =>
    line level (word ++ test.print ++ ":") :: orPass (level + 1) (printBody (level + 1) body) ++
      printOtherwise level otherwise
  | .each binder source body =>
    line level ("for " ++ binder ++ " in " ++ source.print ++ ":") ::
      orPass (level + 1) (printBody (level + 1) body)

/-- The lines of the other branch of a choice. A choice that is all there is in it goes on at the
same level. -/
def printOtherwise (level : Nat) : List Stmt → List String
  | [] => []
  | s :: rest =>
    match s, rest with
    | .branch _ _ _, [] => s.print level "elif "
    | _, _ => line level "else:" :: s.print (level + 1) "if " ++ printBody (level + 1) rest

def printBody (level : Nat) : List Stmt → List String
  | [] => []
  | s :: rest => s.print level "if " ++ printBody level rest

end

def printParam : String × Option Value → String
  | (name, none) => name
  | (name, some v) => name ++ "=" ++ constant v

def Function.print (level : Nat) (f : Function) : List String :=
  ["", line level "@staticmethod",
    line level ("def " ++ f.name ++ "(" ++ ", ".intercalate (f.params.map printParam) ++ "):")] ++
    orPass (level + 1) (printBody (level + 1) f.body)

mutual

def Decl.print (level : Nat) : Decl → List String
  | .table name values =>
    let table := Expr.dict (values.map fun (symbol, n) => (.str symbol, .const (.int n)))
    [line level (name ++ " = " ++ table.print)]
  | .method f => f.print level
  | .type name members =>
    "" :: line level ("class " ++ name ++ ":") :: orPass (level + 1) (printDecls (level + 1) members)
  | .publish object name => [line level (object ++ "." ++ name ++ " = " ++ name)]

def printDecls (level : Nat) : List Decl → List String
  | [] => []
  | d :: rest => d.print level ++ printDecls level rest

end

def source (decls : List Decl) : String :=
  let lines := match decls with
    | .type _ _ :: _ | .method _ :: _ => (printDecls 0 decls).drop 1
    | _ => printDecls 0 decls
  header ++ "\n" ++ "\n".intercalate lines ++ "\n"

end ProtoScribe.Code
