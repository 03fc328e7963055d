import ProtoScribe.Wire.Coding

/-!
# The cursor

A cursor is a buffer with a read position. Reading starts at the position and stays below `length`,
writing appends to the buffer, and `finish` moves `length` to the end of what was written. The wire
type of the last key is kept for the readers that accept two encodings.

An operation on a cursor is a `Run`: it ends with a value or a fault, and in both cases with a cursor,
because a failed operation may have moved it.
-/

namespace ProtoScribe

structure Cursor where
  buf : List UInt8
  pos : Nat
  wireType : Value
  length : Nat
deriving DecidableEq, Repr

abbrev Run := EStateM Fault Cursor

namespace Cursor

def ofBytes (bytes : List UInt8) : Cursor := ⟨bytes, 0, .int 0, bytes.length⟩

def empty : Cursor := ofBytes []

def rest (c : Cursor) : List UInt8 := (c.buf.take c.length).drop c.pos

/-- Whether the last key announced a length-delimited field. -/
def isDelimited (c : Cursor) : Bool := c.wireType.equals (.int 2)

/-- The result of a pure computation, as an operation that leaves the cursor alone. -/
def lift {α : Type} (r : Except Fault α) : Run α := fun c =>
  match r with
  | .ok a => .ok a c
  | .error e => .error e c

def seek (pos : Nat) : Run Unit := fun c => .ok () { c with pos }

def setWireType (wireType : Value) : Run Unit := fun c => .ok () { c with wireType }

def append (bytes : List UInt8) : Run Unit := fun c => .ok () { c with buf := c.buf ++ bytes }

/-- Makes all that was written readable and returns it. -/
def finish : Run (List UInt8) := fun c => .ok c.buf { c with length := c.buf.length }

end Cursor

end ProtoScribe
