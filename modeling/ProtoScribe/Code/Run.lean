import ProtoScribe.Code.Object

/-!
# Running code

Expressions and statements run on a cursor, with the names of the running function and those of the
module around it. Calls of functions go through a parameter, so that evaluating a body is a recursion
on its text; `invoke` ties the knot with a bound on how deeply calls may nest.
-/

namespace ProtoScribe.Code

/-- How a call ended: with the bindings of the function at that time, and with a result. -/
structure Exit where
  frame : Bindings
  result : Object
deriving Inhabited

abbrev Caller := Function → List Object → Run Exit

/-- What a name means: a binding of the function, else one of the module. -/
def resolveName (globals frame : Bindings) (id : String) : Except Fault Object :=
  match frame.lookup id with
  | some o => .ok o
  | none => match globals.lookup id with
    | some o => .ok o
    | none => .error .unboundName

/-- Hands one field to a function that stores it; its second parameter is the message, which it may
have changed. -/
def onField (call : Caller) (f : Function) (tag : Nat) (message : Value) : Run Value := do
  let exit ← call f [.value (.int tag), .value message, .cursor]
  match (f.params[1]?).bind fun p => exit.frame.lookup p.1 with
  | some o => Cursor.lift o.toValue
  | none => return message

def apply (call : Caller) (f : Object) (args : List Object) : Run Object :=
  match f, args with
  | .function f, args => do return (← call f args).result
  | .method m, args => do return .value (← m.call (← Cursor.lift (args.mapM Object.toValue)))
  | .fieldReader, [.function f, .value init, .value stop] => do
    return .value (← Cursor.readFields (onField call f) stop init)
  | .messageWriter, [.value tag, .function f, o] => do
    Cursor.writeMessage tag (discard (call f [o, .cursor]))
    return .value .none
  | .getter entries, [.value key] => return .value ((Value.find? entries key).getD .none)
  | _, _ => throw .wrongType

def add (a b : Value) : Except Fault Value :=
  match a, b with
  | .int a, .int b => .ok (.int (a + b))
  | _, _ => .error .wrongType

mutual

/-- The object that an expression denotes. Operands are evaluated from left to right. -/
def eval (globals frame : Bindings) (call : Caller) : Expr → Run Object
  | .name id => Cursor.lift (resolveName globals frame id)
  | .const v => return .value v
  | .attr object id => do (← eval globals frame call object).member id
  | .item object key => do
    return .value (← Cursor.lift ((← eval globals frame call object).item key))
  | .call function args => do
    let f ← eval globals frame call function
    let args ← evalAll globals frame call args
    apply call f args
  | .sum left right => do
    let a ← eval globals frame call left
    let b ← eval globals frame call right
    return .value (← Cursor.lift (add (← Cursor.lift a.toValue) (← Cursor.lift b.toValue)))
  | .equal left right => do
    let a ← eval globals frame call left
    let b ← eval globals frame call right
    return .value (.bool ((← Cursor.lift a.toValue).equals (← Cursor.lift b.toValue)))
  | .differ left right => do
    let a ← eval globals frame call left
    let b ← eval globals frame call right
    return .value (.bool (!(← Cursor.lift a.toValue).equals (← Cursor.lift b.toValue)))
  | .isSet e => do
    match ← eval globals frame call e with
    | .value .none => return .value (.bool false)
    | _ => return .value (.bool true)
  | .both left right => do
    let a ← eval globals frame call left
    if a.truthy then eval globals frame call right else return a
  | .dict entries => do return .value (Value.ofEntries (← evalEntries globals frame call entries))
  | .emptyList => return .value (.list [])

def evalAll (globals frame : Bindings) (call : Caller) : List Expr → Run (List Object)
  | [] => return []
  | e :: rest => do
    let o ← eval globals frame call e
    let os ← evalAll globals frame call rest
    return o :: os

def evalEntries (globals frame : Bindings) (call : Caller) :
    List (Value × Expr) → Run (List (Value × Value))
  | [] => return []
  | (key, e) :: rest => do
    let v ← Cursor.lift (← eval globals frame call e).toValue
    let entries ← evalEntries globals frame call rest
    return (key, v) :: entries

end

/-- Runs a body once for each item, until it gives a result. -/
def forEach (body : Value → Bindings → Run (Bindings × Option Object)) (frame : Bindings) :
    List Value → Run (Bindings × Option Object)
  | [] => return (frame, none)
  | v :: rest => do
    match ← body v frame with
    | (frame, none) => forEach body frame rest
    | ended => return ended

mutual

/-- Runs a statement: the bindings after it, and the result if it gives one. -/
def exec (globals : Bindings) (call : Caller) (frame : Bindings) :
    Stmt → Run (Bindings × Option Object)
  | .eval e => do
    discard (eval globals frame call e)
    return (frame, none)
  | .store object key value => do
    let v ← Cursor.lift (← eval globals frame call value).toValue
    let o ← Cursor.lift ((← Cursor.lift (resolveName globals frame object)).withItem key v)
    return (assign frame object o, none)
  | .append object key value => do
    let o ← Cursor.lift (resolveName globals frame object)
    match ← Cursor.lift (o.item key) with
    | .list items =>
      let v ← Cursor.lift (← eval globals frame call value).toValue
      return (assign frame object (← Cursor.lift (o.withItem key (.list (items ++ [v])))), none)
    | _ => throw .noMember
  | .extend cursor method object key args => do
    let m ← (← Cursor.lift (resolveName globals frame cursor)).member method
    let o ← Cursor.lift (resolveName globals frame object)
    let old ← Cursor.lift (o.item key)
    let args ← evalAll globals frame call args
    let new ← Cursor.lift (← apply call m (.value old :: args)).toValue
    match old with
    | .list _ => return (assign frame object (← Cursor.lift (o.withItem key new)), none)
    | _ => return (frame, none)
  | .give e => do return (frame, some (← eval globals frame call e))
  | .branch test body otherwise => do
    if (← eval globals frame call test).truthy then execAll globals call frame body
    else execAll globals call frame otherwise
  | .each binder source body => do
    match (← Cursor.lift (← eval globals frame call source).toValue).items? with
    | some items =>
      forEach (fun v frame => execAll globals call (assign frame binder (.value v)) body) frame items
    | none => throw .wrongType

def execAll (globals : Bindings) (call : Caller) (frame : Bindings) :
    List Stmt → Run (Bindings × Option Object)
  | [] => return (frame, none)
  | s :: rest => do
    match ← exec globals call frame s with
    | (frame, none) => execAll globals call frame rest
    | ended => return ended

end

def bindParams : List (String × Option Value) → List Object → Except Fault Bindings
  | [], [] => .ok []
  | (name, _) :: params, o :: args => do return (name, o) :: (← bindParams params args)
  | (name, some v) :: params, [] => do return (name, .value v) :: (← bindParams params [])
  | [], _ :: _ | (_, none) :: _, [] => .error .wrongType

/-- Calls a function; calls may nest up to the given depth. -/
def invoke (globals : Bindings) : (depth : Nat) → Caller
  | 0, _, _ => throw .tooDeep
  | depth + 1, f, args => do
    let frame ← Cursor.lift (bindParams f.params args)
    let (frame, result) ← execAll globals (invoke globals depth) frame f.body
    return ⟨frame, result.getD (.value .none)⟩

end ProtoScribe.Code
