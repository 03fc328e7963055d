import ProtoScribe.Proofs.Cursor.Transfer

/-!
# Writing only appends

A writer does not look at the cursor it writes to. What it appends and how it ends is settled by what it
is given: `Run.Emits x bytes r` says that from every cursor `x` appends `bytes`, touches nothing else,
and has the outcome `r`, which may be a fault. `Run.Writes x` says that there are such bytes and such an
outcome. All writers are of this kind, and sequencing and framing keep to it.

Framing is the step that needs care: the length goes in front of bytes that are already there, but never
in front of what the cursor held before; and a body that fails leaves its bytes without a length.
-/

namespace ProtoScribe

namespace Run

variable {α β : Type}

/-- A writer that appends the given bytes and has the given outcome, from every cursor. -/
def Emits (x : Run α) (bytes : List UInt8) (r : Except Fault α) : Prop :=
  ∀ c, x c = Cursor.lift r { c with buf := c.buf ++ bytes }

/-- A writer that appends the same bytes and has the same outcome wherever it is started. -/
def Writes (x : Run α) : Prop := ∃ bytes r, Emits x bytes r

theorem emits_lift (r : Except Fault α) : Emits (Cursor.lift r) [] r := by
  intro c
  rw [List.append_nil]

/-- Emitting bytes and succeeding is appending them. -/
theorem emits_ok_iff {x : Run Unit} {bytes : List UInt8} : Emits x bytes (.ok ()) ↔ Appends x bytes :=
  Iff.rfl

/-- The second writer appends behind the first. -/
theorem Emits.bind {x : Run α} {f : α → Run β} {a : α} {bytes bytes' : List UInt8} {r : Except Fault β}
    (hx : Emits x bytes (.ok a)) (hf : Emits (f a) bytes' r) : Emits (x >>= f) (bytes ++ bytes') r := by
  intro c
  have hok : x c = .ok a { c with buf := c.buf ++ bytes } := hx c
  rw [bind_of_ok hok, hf, List.append_assoc]

/-- After a fault nothing is appended. -/
theorem Emits.bind_error {x : Run α} {bytes : List UInt8} {e : Fault} (hx : Emits x bytes (.error e))
    (f : α → Run β) : Emits (x >>= f) bytes (.error e) := by
  intro c
  have herror : x c = .error e { c with buf := c.buf ++ bytes } := hx c
  exact bind_of_error herror

theorem Writes.lift (r : Except Fault α) : Writes (Cursor.lift r) := ⟨[], r, emits_lift r⟩

theorem Writes.pure (a : α) : Writes (Pure.pure a) := Writes.lift (.ok a)

theorem Writes.throw (e : Fault) : Writes (MonadExcept.throw e : Run α) := Writes.lift (.error e)

/-- Writers in a row write: what the first one leaves behind, the second one adds to. -/
theorem Writes.bind {x : Run α} {f : α → Run β} (hx : Writes x) (hf : ∀ a, Writes (f a)) :
    Writes (x >>= f) := by
  obtain ⟨bytes, r, hx⟩ := hx
  cases r with
  | error e => exact ⟨bytes, .error e, hx.bind_error f⟩
  | ok a =>
    obtain ⟨bytes', r', hf⟩ := hf a
    exact ⟨bytes ++ bytes', r', hx.bind hf⟩

/-- The induction is on the list: a writer that fails for one item leaves what was written for those
before. -/
theorem Writes.forM {as : List α} {f : α → Run PUnit} (h : ∀ a ∈ as, Writes (f a)) :
    Writes (as.forM f) := by
  induction as with
  | nil => exact .pure _
  | cons a as ih =>
    refine (h a (by simp)).bind fun _ => ih fun b hb => ?_
    exact h b (by simp [hb])

/-- What a writer does at one cursor it does at all of them. -/
theorem Writes.appends_of_ok {x : Run Unit} (h : Writes x) {u : Unit} {c c' : Cursor} (hx : x c = .ok u c') :
    ∃ bytes, Appends x bytes ∧ c' = { c with buf := c.buf ++ bytes } := by
  obtain ⟨bytes, r, hemits⟩ := h
  cases r with
  | error e => cases (hemits c).symm.trans hx
  | ok u' =>
    cases (hemits c).symm.trans hx
    exact ⟨bytes, hemits, rfl⟩

/-- Writers of the same kind succeed in a row if and only if each of them does, and then the bytes of
the row are those of the writers one after the other. -/
theorem forM_ok_iff {as : List α} {f : α → Run PUnit} (h : ∀ a, Writes (f a)) {c c' : Cursor} :
    as.forM f c = .ok () c' ↔ ∃ parts, List.Forall₂ (fun a bytes => Appends (f a) bytes) as parts ∧
      c' = { c with buf := c.buf ++ parts.flatten } := by
  induction as generalizing c with
  | nil =>
    constructor
    · intro hc
      cases hc
      exact ⟨[], .nil, by simp⟩
    · rintro ⟨parts, hparts, rfl⟩
      cases hparts
      simp [List.forM]
  | cons a as ih =>
    have hcons : (a :: as).forM f = f a >>= fun _ => as.forM f := rfl
    rw [hcons]
    constructor
    · intro hc
      obtain ⟨u, c₁, ha, has⟩ := bind_eq_ok hc
      obtain ⟨bytes, happends, rfl⟩ := (h a).appends_of_ok ha
      obtain ⟨parts, hparts, rfl⟩ := ih.1 has
      exact ⟨bytes :: parts, .cons happends hparts, by simp⟩
    · rintro ⟨parts, hparts, rfl⟩
      cases hparts with
      | @cons _ bytes _ parts hbytes hparts =>
        rw [bind_of_ok (hbytes c)]
        refine ih.2 ⟨parts, hparts, ?_⟩
        simp

end Run

namespace Cursor

open Run

/-- A writer appends some bytes if and only if these are what an empty cursor holds after it. -/
theorem appends_iff_finish {x : Run Unit} (h : Writes x) {bytes : List UInt8} :
    Appends x bytes ↔ ∃ c, (x >>= fun _ => finish) .empty = .ok bytes c := by
  constructor
  · exact appends_finish
  · rintro ⟨c, hc⟩
    obtain ⟨u, c₁, hx, hfinish⟩ := bind_eq_ok hc
    obtain ⟨bytes', happends, rfl⟩ := h.appends_of_ok hx
    cases hfinish
    exact happends

theorem writes_append (bytes : List UInt8) : Writes (append bytes) := ⟨bytes, .ok (), fun _ => rfl⟩

theorem writes_writeTag (tag wireType : Value) : Writes (writeTag tag wireType) := by
  unfold writeTag
  split
  · exact writes_append _
  · exact .throw _

theorem writes_writeBytes (v : Value) : Writes (writeBytes v) := by
  unfold writeBytes
  split
  · exact .throw _
  · refine (writes_append _).bind fun _ => ?_
    split
    · exact writes_append _
    · exact .throw _

/-- Whatever the value, a writer for a coding appends some bytes, and then succeeds or fails. -/
theorem writes_write (coding : Wire.Coding) (v : Value) : Writes (write coding v) := by
  cases coding with
  | varint | svarint => exact (Writes.lift _).bind fun _ => writes_append _
  | boolean => exact writes_append _
  | fixed32 | sfixed32 | fixed64 | sfixed64 | float | double =>
    exact (Writes.lift _).bind writes_append
  | bytes => exact writes_writeBytes v
  | string => exact (Writes.lift _).bind fun _ => writes_writeBytes _

theorem writes_writeField (coding : Wire.Coding) (tag v : Value) : Writes (writeField coding tag v) :=
  (writes_writeTag _ _).bind fun _ => writes_write coding v

/-- A body that fails is left as it is: the length would come later. -/
theorem emits_writeFramed_error {body : Run Unit} {bytes : List UInt8} {e : Fault}
    (h : Emits body bytes (.error e)) : Emits (writeFramed body) bytes (.error e) := by
  intro c
  rw [writeFramed, bind_apply, get_apply]
  exact h.bind_error _ c

/-- A body that fails leaves its bytes without the length, which is inserted only afterwards. -/
theorem writes_writeFramed {body : Run Unit} (h : Writes body) : Writes (writeFramed body) := by
  obtain ⟨bytes, r, h⟩ := h
  cases r with
  | ok _ => exact ⟨_, .ok (), emits_ok_iff.2 (appends_writeFramed (emits_ok_iff.1 h))⟩
  | error e => exact ⟨bytes, .error e, emits_writeFramed_error h⟩

theorem writes_writeMessage (tag : Value) {body : Run Unit} (h : Writes body) :
    Writes (writeMessage tag body) :=
  (writes_writeTag _ _).bind fun _ => writes_writeFramed h

theorem writes_writeEach (coding : Wire.Coding) (vs : List Value) : Writes (writeEach coding vs) := by
  induction vs with
  | nil => exact .pure _
  | cons v vs ih => exact (writes_write coding v).bind fun _ => ih

/-- A value that cannot be iterated over fails behind the key, an item that is refused behind the items
before it. -/
theorem writes_writePacked (coding : Wire.Coding) (tag v : Value) :
    Writes (writePacked coding tag v) := by
  unfold writePacked
  split
  · refine writes_writeMessage tag ?_
    split
    · exact writes_writeEach coding _
    · exact .throw _
  · exact .pure _

end Cursor

end ProtoScribe
