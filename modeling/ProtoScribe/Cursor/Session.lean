import ProtoScribe.Cursor.Write

/-!
# Sessions

Reading fields and writing messages call back, and what is called may do anything with the cursor. So a
loop over fields need not end: a handler can write a field behind those that it is handed, make it
readable, and thus never run out of fields, if there is no other end. A `Session` is an operation that
ends like a `Run`, or does not end.
-/

namespace ProtoScribe

/-- An operation on a cursor that may run on forever. -/
def Session (α : Type) : Type := Cursor → Option (EStateM.Result Fault Cursor α)

/-- Repeats an operation while the position is below `stop`, or without end if there is no `stop`. -/
def Cursor.readWhile {σ : Type} (next : σ → Session σ) (stop : Option Nat) (acc : σ) (c : Cursor) :
    Option (EStateM.Result Fault Cursor σ) :=
  if stop.all (c.pos < ·) then do
    match ← next acc c with
    | .ok acc c' => c' |>.readWhile next stop acc
    | .error e c' => some (.error e c')
  else some (.ok acc c)
partial_fixpoint

namespace Session

variable {α β σ : Type}

def ofRun (x : Run α) : Session α := fun c => some (x c)

/-- Two operations in a row; the second one is left out after a fault. -/
def andThen (x : Session α) (f : α → Session β) : Session β := fun c => do
  match ← x c with
  | .ok a c' => f a c'
  | .error e c' => some (.error e c')

instance : Monad Session where
  pure a := ofRun (pure a)
  bind := andThen

instance : MonadLift Run Session := ⟨ofRun⟩

/-- Tells how an operation ends instead of failing with it. -/
def attempt (x : Session α) : Session (Except Fault α) := fun c => do
  match ← x c with
  | .ok a c' => some (.ok (.ok a) c')
  | .error e c' => some (.ok (.error e) c')

/-- An operation that does not end where it is not allowed. -/
def permit (allowed : Bool) (x : Session α) : Session α := fun c => if allowed then x c else none

/-! ### Reading -/

/-- Hands the field of a key to `onField`, with its tag. A field that `onField` does not move past is
skipped. -/
def readKeyed (onField : Nat → σ → Session σ) (key : Nat) (acc : σ) : Session σ := do
  let start := (← get).pos
  Cursor.setWireType (.int (key % 8 : Nat))
  let acc ← onField (key / 8) acc
  if (← get).pos = start then Cursor.skip key
  return acc

def readNext (onField : Nat → σ → Session σ) (acc : σ) : Session σ := do
  let key ← Cursor.readVarint
  readKeyed onField key acc

/-- Whether no position is as far as a value. -/
def isEndless : Value → Bool
  | .float x => !x.isNaN && !x.negative && x.truncate?.isNone
  | _ => false

/-- Where reading stops, if anywhere. -/
def stopOf (stop : Value) (c : Cursor) : Except Fault (Option Nat) :=
  if isEndless stop then .ok none else (Cursor.stopAt stop c).map some

def readFields (onField : Nat → σ → Session σ) (stop : Value) (init : σ) : Session σ := do
  let stop ← Cursor.lift (stopOf stop (← get))
  Cursor.readWhile (readNext onField) stop init

def readMessage (onField : Nat → σ → Session σ) (init : σ) : Session σ := do
  let size ← Cursor.readVarint
  let pos := (← get).pos
  readFields onField (.int (size + pos : Nat)) init

/-! ### Writing -/

def writeFramed (body : Session Unit) : Session Unit := do
  let start := (← get).buf.length
  body
  let size := (← get).buf.length - start
  Cursor.insertAt start (Wire.varint size)

def writeMessage (tag : Value) (body : Session Unit) : Session Unit := do
  Cursor.writeTag tag (.int 2)
  writeFramed body

end Session

end ProtoScribe
