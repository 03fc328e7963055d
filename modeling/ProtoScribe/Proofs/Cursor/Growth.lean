import ProtoScribe.Cursor.Method
import ProtoScribe.Proofs.Cursor.Emission
import ProtoScribe.Proofs.Cursor.Session
import ProtoScribe.Proofs.Outcome

/-!
# What operations leave in place

A cursor is in order if its position is within the readable bytes and these are within the buffer. No
operation but a jump takes it out of order, moves position or readable length back, or touches what the
buffer holds already; and only writing adds to the buffer, only finishing moves the readable length.
`Cursor.Grows` says this of two cursors, `Session.Keeps` of an operation.

Reading fields ends because each field moves the position. Where nothing says how far to read, the
fields run out only if the handlers do not both write and finish (`ends_readFields`).
-/

namespace ProtoScribe

namespace Cursor

/-- The position is within the readable bytes, and these are within the buffer. -/
structure InOrder (c : Cursor) : Prop where
  pos_le : c.pos ≤ c.length
  length_le : c.length ≤ c.buf.length

theorem inOrder_ofBytes (bytes : List UInt8) : (ofBytes bytes).InOrder :=
  ⟨Nat.zero_le _, Nat.le_refl _⟩

/-- How operations that do not jump change a cursor, if they change its buffer only where they may
write and its readable length only where they may finish. -/
structure Grows (writes finishes : Prop) (c c' : Cursor) : Prop where
  inOrder : c.InOrder → c'.InOrder
  pos_le : c.pos ≤ c'.pos
  length_le : c.InOrder → c.length ≤ c'.length
  front : c.buf <+: c'.buf
  buf_eq : ¬ writes → c'.buf = c.buf
  length_eq : ¬ finishes → c'.length = c.length

variable {W F : Prop}

/-- Reading keeps a cursor in order, whatever else may be done to it. -/
theorem Moves.grows {c c' : Cursor} (h : c.Moves c') : Grows W F c c' where
  inOrder hc := by
    obtain ⟨hpos, hlength⟩ := hc
    have hwithin := h.within
    refine ⟨?_, ?_⟩
    · rw [h.length_eq]
      omega
    · rwa [h.length_eq, h.buf_eq]
  pos_le := h.le
  length_le _ := Nat.le_of_eq h.length_eq.symm
  front := h.buf_eq ▸ List.prefix_refl _
  buf_eq _ := h.buf_eq
  length_eq _ := h.length_eq

/-- What operations in a row do to a cursor. -/
theorem Grows.trans {c c₁ c₂ : Cursor} (h : Grows W F c c₁) (h' : Grows W F c₁ c₂) :
    Grows W F c c₂ where
  inOrder hc := h'.inOrder (h.inOrder hc)
  pos_le := Nat.le_trans h.pos_le h'.pos_le
  length_le hc := Nat.le_trans (h.length_le hc) (h'.length_le (h.inOrder hc))
  front := h.front.trans h'.front
  buf_eq hW := (h'.buf_eq hW).trans (h.buf_eq hW)
  length_eq hF := (h'.length_eq hF).trans (h.length_eq hF)

theorem allowsReading_grows : AllowsReading (Grows W F) := ⟨Moves.grows, Grows.trans⟩

/-- More in the buffer, behind what was there before. -/
theorem Grows.insert {c c' : Cursor} (hW : W) (h : Grows W F c c') (bytes : List UInt8) :
    Grows W F c
      { c' with buf := c'.buf.take c.buf.length ++ bytes ++ c'.buf.drop c.buf.length } where
  inOrder hc := by
    obtain ⟨hpos, hlength⟩ := h.inOrder hc
    refine ⟨hpos, Nat.le_trans hlength ?_⟩
    simp only [List.length_append, List.length_take, List.length_drop]
    omega
  pos_le := h.pos_le
  length_le := h.length_le
  front := by
    obtain ⟨added, hadded⟩ := h.front
    rw [← hadded, List.take_left, List.append_assoc]
    exact List.prefix_append _ _
  buf_eq hnot := absurd hW hnot
  length_eq := h.length_eq

theorem grows_append {c : Cursor} (hW : W) (bytes : List UInt8) :
    Grows W F c { c with buf := c.buf ++ bytes } := by
  have h : Grows W F c c := (Moves.refl c).grows
  simpa using h.insert hW bytes

/-- Finishing makes the whole buffer readable, which is why order asks no more of the length than that.
-/
theorem grows_finish {c : Cursor} (hF : F) : Grows W F c { c with length := c.buf.length } where
  inOrder hc := ⟨Nat.le_trans hc.pos_le hc.length_le, Nat.le_refl _⟩
  pos_le := Nat.le_refl _
  length_le hc := hc.length_le
  front := List.prefix_refl _
  buf_eq _ := rfl
  length_eq hnot := absurd hF hnot

def Method.writes : Method → Bool
  | .write _ | .writeField _ | .writePacked _ | .writeTag => true
  | .read _ | .readPacked _ | .skip | .finish => false

def Combinator.writes : Combinator → Bool
  | .writeMessage | .writeRaw => true
  | .readFields | .readMessage => false

def nameWrites (name : String) : Bool :=
  (Method.ofName? name).any Method.writes || (Combinator.ofName? name).any Combinator.writes

end Cursor

namespace Session

open Cursor

variable {W F : Prop} {α σ : Type}

/-! ## Single operations -/

/-- Writing needs leave to write, also where it fails half-way. -/
theorem keeps_of_writes (hW : W) {x : Run α} (h : Run.Writes x) : Keeps (Grows W F) (ofRun x) := by
  obtain ⟨bytes, r, h⟩ := h
  rintro c _ ⟨⟩
  rw [h]
  cases r with
  | ok a => exact grows_append hW bytes
  | error e => exact grows_append hW bytes

/-- Each operation does what its kind says: readers move, writers append, finishing sets the length. -/
theorem keeps_call (m : Method) (args : List Value) (hW : m.writes = true → W) (hF : m = .finish → F) :
    Keeps (Grows W F) (ofRun (m.call args)) := by
  have hreads {bad : Fault → Prop} {x : Run Value} (hx : Run.Reads bad x) :
      Keeps (Grows W F) (ofRun x) := keeps_of_reads allowsReading_grows hx
  have hthrow : Run.Reads (fun _ => True) (throw .wrongType : Run Value) := .throw trivial
  unfold Method.call
  split
  · exact hreads (advances_read _).reads
  · exact hreads (advances_readAs .varint _).reads
  · exact hreads (reads_readPacked _ _ _)
  · exact hreads (reads_readPacked _ _ _)
  · exact hreads (reads_readPacked .varint _ _)
  · exact keeps_of_writes (hW rfl) ((writes_write _ _).bind fun _ => .pure _)
  · exact keeps_of_writes (hW rfl) ((writes_writeField _ _ _).bind fun _ => .pure _)
  · exact keeps_of_writes (hW rfl) ((writes_writePacked _ _ _).bind fun _ => .pure _)
  · exact keeps_of_writes (hW rfl) ((writes_writeTag _ _).bind fun _ => .pure _)
  · split
    · exact hreads ((reads_skip _).bind fun _ => .pure _)
    · exact hreads hthrow
  · rintro c _ ⟨⟩
    exact grows_finish (hF rfl)
  · exact hreads hthrow

/-- Plain values in place of a function fail where it would be called, behind what was read or written
up to there. -/
theorem keeps_callPlain (k : Combinator) (args : List Value) (hW : k.writes = true → W) :
    Keeps (Grows W F) (ofRun (k.call args)) := by
  have hreads {x : Run Value} (hx : Run.Reads (fun _ => True) x) : Keeps (Grows W F) (ofRun x) :=
    keeps_of_reads allowsReading_grows hx
  have hfields (stop init : Value) :
      Run.Reads (fun _ => True) (Cursor.readFields Combinator.call.uncallable stop init) :=
    reads_readFields (fun _ _ => .throw trivial) stop init
  unfold Combinator.call
  split
  · exact hreads (hfields _ _)
  · exact hreads (hfields _ _)
  · refine hreads (.bind ?_ fun size => .bind .get fun c => hfields _ _)
    exact advances_readVarint.reads.imp fun _ _ => trivial
  · exact keeps_of_writes (hW rfl) ((writes_writeMessage _ (.throw _)).bind fun _ => .pure _)
  · exact keeps_of_writes (hW rfl) ((writes_writeFramed (.throw _)).bind fun _ => .pure _)
  · exact hreads (.throw trivial)

theorem keeps_callByName (name : String) (args : List Value) (hW : nameWrites name = true → W)
    (hF : Method.ofName? name = some .finish → F) : Keeps (Grows W F) (ofRun (callByName name args)) := by
  unfold callByName
  cases hm : Method.ofName? name with
  | some m =>
    rw [hm] at hF
    exact keeps_call m args (fun h => hW (by simp [nameWrites, hm, h])) fun h => hF (congrArg some h)
  | none =>
    cases hk : Combinator.ofName? name with
    | some k => exact keeps_callPlain k args fun h => hW (by simp [nameWrites, hk, h])
    | none =>
      have hthrow : Run.Reads (fun _ => True) (throw .noMember : Run Value) := .throw trivial
      exact keeps_of_reads allowsReading_grows hthrow

-- The key is written before the function is missed. Without a field to read, it is not missed at all.
example : callByName "write_message" [.int 1, .none, .none] .empty =
    .error .wrongType { Cursor.empty with buf := [0x0a] } := rfl

example : callByName "read_fields" [.none, .int 5] .empty = .ok (.int 5) .empty := rfl

/-! ## Messages -/

/-- Inserting the length behind the fact moves nothing that was in the buffer before the body ran. -/
theorem keeps_writeFramed (hW : W) {body : Session Unit} (h : Keeps (Grows W F) body) :
    Keeps (Grows W F) (writeFramed body) := by
  intro c r hr
  rw [writeFramed, get_bind] at hr
  rcases bind_eq_some hr with ⟨u, c', hbody, hr⟩ | ⟨e, c', hbody, rfl⟩
  · -- the length goes behind what was there before the body
    cases hr
    exact (h c _ hbody).insert hW _
  · exact h c _ hbody

theorem keeps_writeMessage (hW : W) (tag : Value) {body : Session Unit} (h : Keeps (Grows W F) body) :
    Keeps (Grows W F) (writeMessage tag body) :=
  .bind allowsReading_grows (keeps_of_writes hW (writes_writeTag tag _)) fun _ => keeps_writeFramed hW h

theorem ends_writeFramed {body : Session Unit} (h : Ends body) : Ends (writeFramed body) := by
  refine .bind (ends_ofRun get) fun c => h.bind fun _ => ?_
  exact .bind (ends_ofRun get) fun c' => ends_ofRun (insertAt _ _)

theorem ends_writeMessage (tag : Value) {body : Session Unit} (h : Ends body) : Ends (writeMessage tag body) :=
  .bind (ends_ofRun (Cursor.writeTag tag (.int 2))) fun _ => ends_writeFramed h

/-! ## Fields -/

section

variable {onField : Nat → σ → Session σ}

/-- Only infinity is no position to stop at. -/
theorem isEndless_of_stopOf {stop : Value} {c : Cursor} (h : stopOf stop c = .ok none) :
    isEndless stop = true := by
  unfold stopOf at h
  split at h
  · next hendless => exact hendless
  · obtain ⟨limit, -, hlimit⟩ := Outcome.map_ok h
    cases hlimit

/-- Fields run out: a stop is reached in the end, and where there is none, so is the end of the bytes
if they are not both written and made readable while they are read. -/
theorem ends_readWhile_readNext (hends : ∀ tag acc, Ends (onField tag acc))
    (hgrows : ∀ tag acc, Keeps (Grows W F) (onField tag acc)) {stop : Option Nat}
    (hstop : stop = none → ¬ W ∨ ¬ F) (init : σ) : Ends (Cursor.readWhile (readNext onField) stop init) := by
  have hR : AllowsReading (Grows W F) := allowsReading_grows
  have hnext := ends_readNext hends
  cases stop with
  | some limit =>
    refine ends_readWhile (fun c => limit - c.pos) hnext (fun acc acc' c c' hbelow h => ?_) init
    obtain ⟨-, hlt⟩ := readNext_advances hR Grows.pos_le hgrows h
    have hbelow : c.pos < limit := by simpa using hbelow
    omega
  | none =>
    -- what stays as it is bounds the position
    rcases hstop rfl with hW | hF
    · refine ends_readWhile (fun c => c.buf.length - c.pos) hnext (fun acc acc' c c' _ h => ?_) init
      obtain ⟨hwithin, hlt⟩ := readNext_advances hR Grows.pos_le hgrows h
      have hbuf : c'.buf = c.buf := (keeps_readNext hR hgrows acc c _ h).buf_eq hW
      rw [hbuf]
      omega
    · refine ends_readWhile (fun c => c.length - c.pos) hnext (fun acc acc' c c' _ h => ?_) init
      obtain ⟨hwithin, hlt⟩ := readNext_advances hR Grows.pos_le hgrows h
      have hlength : c'.length = c.length := (keeps_readNext hR hgrows acc c _ h).length_eq hF
      rw [hlength]
      omega

/-- Reading fields ends, unless the stop is infinity and the handlers may both write and finish. -/
theorem ends_readFields (hends : ∀ tag acc, Ends (onField tag acc))
    (hgrows : ∀ tag acc, Keeps (Grows W F) (onField tag acc)) {stop : Value}
    (hstop : isEndless stop = true → ¬ W ∨ ¬ F) (init : σ) : Ends (readFields onField stop init) := by
  refine .bind (ends_ofRun get) fun c c' => ?_
  cases hlimit : stopOf stop c with
  | error e => exact ⟨_, bind_of_error rfl⟩
  | ok limit =>
    show ∃ r, Cursor.readWhile (readNext onField) limit init c' = some r
    apply ends_readWhile_readNext hends hgrows
    rintro rfl
    exact hstop (isEndless_of_stopOf hlimit)

/-- An embedded message always has a stop, so its handlers may do as they please. -/
theorem ends_readMessage (hends : ∀ tag acc, Ends (onField tag acc))
    (hgrows : ∀ tag acc, Keeps (Grows W F) (onField tag acc)) (init : σ) :
    Ends (readMessage onField init) := by
  refine (ends_ofRun readVarint).bind fun size => .bind (ends_ofRun get) fun c => ?_
  apply ends_readFields hends hgrows
  intro hendless
  cases hendless

end

end Session

end ProtoScribe
