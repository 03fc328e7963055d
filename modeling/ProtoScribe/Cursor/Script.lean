import ProtoScribe.Cursor.Method
import ProtoScribe.Cursor.Session

/-!
# Scripts

A script is a sequence of steps on one cursor. A step that calls back takes a program, which may do
anything to the cursor that the step is at work on: it looks at the cursor, runs steps of its own, sees
how each of them ends, and goes on after faults or raises them. So a step need not end.

`Step.runWhere` runs a step as long as every step that it comes to is allowed, and `Step.run` allows
them all.
-/

namespace ProtoScribe.Cursor

mutual

/-- One operation on a cursor. Reading fields hands a program the tag of each field and what it gave for
the field before. -/
inductive Step
  | call (name : String) (args : List Value)
  | seek (pos : Nat)
  | setWireType (wireType : Value)
  | readFields (onField : Nat → Value → Program) (stop init : Value)
  | readMessage (onField : Nat → Value → Program) (init : Value)
  | writeMessage (tag : Value) (body : Program)
  | writeRaw (body : Program)

/-- What is done where a step calls back: it gives a value, fails, looks at the cursor, or runs a step
and goes on from how that ended. -/
inductive Program
  | give (v : Value)
  | fail (e : Fault)
  | look (next : Cursor → Program)
  | andThen (step : Step) (next : Except Fault Value → Program)

end

instance : Inhabited Step := ⟨.seek 0⟩

mutual

/-- Runs a step in which only some steps are allowed. -/
def Step.runWhere (allowed : Step → Bool) : Step → Session Value
  | .call name args => .permit (allowed (.call name args)) do callByName name args
  | .seek pos => .permit (allowed (.seek pos)) do Cursor.seek pos; return .none
  | .setWireType wireType =>
    .permit (allowed (.setWireType wireType)) do Cursor.setWireType wireType; return .none
  | .readFields onField stop init =>
    .permit (allowed (.readFields onField stop init)) do
      Session.readFields (fun tag acc => (onField tag acc).runWhere allowed) stop init
  | .readMessage onField init =>
    .permit (allowed (.readMessage onField init)) do
      Session.readMessage (fun tag acc => (onField tag acc).runWhere allowed) init
  | .writeMessage tag body =>
    .permit (allowed (.writeMessage tag body)) do
      Session.writeMessage tag do let _ ← body.runWhere allowed
      return .none
  | .writeRaw body =>
    .permit (allowed (.writeRaw body)) do
      Session.writeFramed do let _ ← body.runWhere allowed
      return .none

/-- Runs a program in which only some steps are allowed. -/
def Program.runWhere (allowed : Step → Bool) : Program → Session Value
  | .give v => return v
  | .fail e => Session.ofRun (throw e)
  | .look next => do (next (← get)).runWhere allowed
  | .andThen step next => do (next (← (step.runWhere allowed).attempt)).runWhere allowed

end

def Step.run (step : Step) : Session Value := step.runWhere fun _ => true

namespace Program

/-- Runs steps in turn, up to the first fault. -/
def ofSteps : List Step → Program
  | [] => .give .none
  | step :: rest => .andThen step fun
    | .ok _ => ofSteps rest
    | .error e => .fail e

/-- Adds the entry of a field to those before it: its tag, the wire type of its key, and a value. -/
def addEntry (tag : Nat) (wireType v : Value) : Value → Value
  | .list entries => .list (entries ++ [.list [.int tag, wireType, v]])
  | other => other

/-- Runs the step for a tag, if there is one, and adds the entry of the field. -/
def ofTable (handlers : List (String × Step)) (tag : Nat) (entries : Value) : Program :=
  .look fun c =>
    match handlers.lookup (toString tag) with
    | none => .give (addEntry tag c.wireType .none entries)
    | some step => .andThen step fun
      | .ok v => .give (addEntry tag c.wireType v entries)
      | .error e => .fail e

end Program

/-- What one step of a script did: its result, and the cursor before and after. -/
structure Outcome where
  result : Except Fault Value
  before : Cursor
  after : Cursor

def Outcome.ofResult (before : Cursor) : EStateM.Result Fault Cursor Value → Outcome
  | .ok v after => ⟨.ok v, before, after⟩
  | .error e after => ⟨.error e, before, after⟩

/-- Runs all steps of a script on one cursor, going on after faults, if every step ends. -/
def runScript (c : Cursor) : List Step → Option (List Outcome)
  | [] => some []
  | step :: rest => do
    let outcome := Outcome.ofResult c (← step.run c)
    let outcomes ← runScript outcome.after rest
    return outcome :: outcomes

end ProtoScribe.Cursor
