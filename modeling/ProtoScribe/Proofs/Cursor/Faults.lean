import ProtoScribe.Cursor.Write
import ProtoScribe.Proofs.Outcome
import ProtoScribe.Proofs.Run

/-!
# Faults of writers

A writer of a value fails because the value does not suit its coding. It makes no calls of its own, so
whatever it is handed, it does not fail for want of depth; neither does a framed body that does not.
-/

namespace ProtoScribe

open Run

def Fault.IsShallow (e : Fault) : Prop := e ≠ .tooDeep

/-! ## Conversions -/

/-- A conversion fails for a reason of its own, never for the depth of calls. -/
theorem Value.toInteger_shallow {v : Value} {e : Fault} (h : v.toInteger = .error e) : e.IsShallow := by
  rintro rfl
  unfold Value.toInteger at h
  split at h
  · cases h
  · cases h
  · split at h
    · cases h
    · split at h <;> cases h
  · split at h <;> cases h
  · split at h <;> cases h
  · cases h
  · cases h
  · cases h

theorem Value.toText_shallow {v : Value} {e : Fault} (h : v.toText = .error e) : e.IsShallow := by
  rintro rfl
  unfold Value.toText at h
  split at h <;> cases h

namespace Wire

theorem fixedBytes_shallow {size : Nat} {signed : Bool} {v : Value} {e : Fault}
    (h : fixedBytes size signed v = .error e) : e.IsShallow := by
  rintro rfl
  unfold fixedBytes at h
  split at h
  · cases h
  · cases signed <;> simp only [reduceIte, Bool.false_eq_true] at h <;> split at h <;> cases h

theorem toBinary64_shallow {v : Value} {e : Fault} (h : toBinary64 v = .error e) : e.IsShallow := by
  rintro rfl
  unfold toBinary64 at h
  split at h
  · cases h
  · split at h <;> cases h

theorem floatBytes_shallow {v : Value} {e : Fault} (h : floatBytes v = .error e) : e.IsShallow := by
  unfold floatBytes at h
  split at h
  · next he =>
    cases h
    exact toBinary64_shallow he
  · rintro rfl
    split at h
    · cases h
    · split at h <;> cases h

theorem doubleBytes_shallow {v : Value} {e : Fault} (h : doubleBytes v = .error e) : e.IsShallow :=
  toBinary64_shallow (Outcome.map_error h)

end Wire

/-! ## Writers -/

namespace Cursor

theorem fails_append (bytes : List UInt8) : Fails Fault.IsShallow (append bytes) := fun _ => trivial

theorem fails_writeTag (tag wireType : Value) : Fails Fault.IsShallow (writeTag tag wireType) := by
  unfold writeTag
  split
  · exact fails_append _
  · exact .throw (by rintro ⟨⟩)

theorem fails_writeBytes (v : Value) : Fails Fault.IsShallow (writeBytes v) := by
  unfold writeBytes
  split
  · exact .throw (by rintro ⟨⟩)
  · refine (fails_append _).bind fun _ => ?_
    split
    · exact fails_append _
    · exact .throw (by rintro ⟨⟩)

/-- Writing a scalar calls nothing that could nest. -/
theorem fails_write (coding : Wire.Coding) (v : Value) : Fails Fault.IsShallow (write coding v) := by
  have happend : ∀ {r : Except Fault (List UInt8)}, (∀ e, r = .error e → e.IsShallow) →
      Fails Fault.IsShallow (lift r >>= append) := fun h => (Fails.lift h).bind fails_append
  cases coding with
  | varint | svarint => exact (Fails.lift fun _ => Value.toInteger_shallow).bind fun _ => fails_append _
  | boolean => exact fails_append _
  | fixed32 | sfixed32 | fixed64 | sfixed64 => exact happend fun _ => Wire.fixedBytes_shallow
  | float => exact happend fun _ => Wire.floatBytes_shallow
  | double => exact happend fun _ => Wire.doubleBytes_shallow
  | bytes => exact fails_writeBytes v
  | string => exact (Fails.lift fun _ => Value.toText_shallow).bind fun _ => fails_writeBytes _

theorem fails_writeField (coding : Wire.Coding) (tag v : Value) :
    Fails Fault.IsShallow (writeField coding tag v) :=
  (fails_writeTag _ _).bind fun _ => fails_write coding v

/-- A framed message nests no deeper than its body does. -/
theorem fails_writeMessage (tag : Value) {body : Run Unit} (h : Fails Fault.IsShallow body) :
    Fails Fault.IsShallow (writeMessage tag body) :=
  (fails_writeTag _ _).bind fun _ => Fails.get.bind fun _ => h.bind fun _ => Fails.get.bind fun _ =>
    fun _ => trivial

theorem fails_writePacked (coding : Wire.Coding) (tag v : Value) :
    Fails Fault.IsShallow (writePacked coding tag v) := by
  unfold writePacked
  split
  · refine fails_writeMessage tag ?_
    split
    · next vs _ =>
      clear * - vs
      induction vs with
      | nil => exact .pure _
      | cons v vs ih => exact (fails_write coding v).bind fun _ => ih
    · exact .throw (by rintro ⟨⟩)
  · exact .pure _

end Cursor

end ProtoScribe
