import ProtoScribe.Proofs.Codec.Merging
import ProtoScribe.Proofs.Codec.Omission

/-!
# Messages in messages that were read

What a message that was read holds for a slot with messages was read as a message, or is the default of the
slot (`Codec.partial_of_read`). `Codec.Fares` says what becomes of such a slot: without data for it the
message holds its default, if it has one, and writing the message hands on messages that were read, or the
default (`Codec.fares_of_read`).
-/

namespace ProtoScribe

namespace Codec

open Run

/-- The values that are read as messages of the type at a place, from some bytes up to somewhere. -/
def IsRead (p : Place) (v : Value) : Prop := ∃ stop c c', read p stop c = .ok v c'

variable {p q : Place} {slots : List Slot} {slot : Slot} {stop v : Value} {c c' : Cursor}
  {message : List (Value × Value)}

/-- Reading a message is reading its fields into what it starts with. -/
theorem read_ok (hslots : p.slots = .ok slots) (h : read p stop c = .ok v c') :
    ∃ message, v = .dict message ∧
      Cursor.readFields (readField read slots) stop (initial slots) c = .ok message c' := by
  rw [read_eq, hslots, lift_ok_bind] at h
  obtain ⟨message, d, hfields, h⟩ := bind_eq_ok h
  cases h
  exact ⟨message, rfl, hfields⟩

theorem IsRead.dict (h : IsRead p v) : ∃ entries, v = .dict entries := by
  obtain ⟨stop, c, c', h⟩ := h
  cases hslots : p.slots with
  | error e =>
    rw [read_eq, hslots, lift_error_bind] at h
    cases h
  | ok slots =>
    obtain ⟨message, rfl, -⟩ := read_ok hslots h
    exact ⟨message, rfl⟩

/-- What a message that was read holds for a slot with messages was read as one. -/
theorem partial_of_read (hslots : p.slots = .ok slots) (hapart : Slot.Apart slots)
    (h : Cursor.readFields (readField read slots) stop (initial slots) c = .ok message c') :
    Partial (Slot.Got IsRead) slots message := by
  -- nothing is said about faults here, so any place and any fault will do
  have policy : Policy (fun _ => True) fun _ => True :=
    ⟨fun _ _ => trivial, fun _ _ _ _ => trivial, fun _ _ _ _ _ _ _ _ => trivial,
      fun _ _ _ _ => .inr ⟨trivial, trivial⟩⟩
  have hemb : ∀ q stop d, True → d.rest.length < c.rest.length + 1 →
      Ends (read q (.int stop)) d (fun v d' => IsRead q v ∧ d.Moves d') (fun _ d' => True ∧ d.Moves d') := by
    intro q stop d _ _
    have hmoves := reads_read q (.int stop) d
    exact .intro (fun v d' hread => ⟨⟨_, d, d', hread⟩, hmoves.of_ok hread⟩)
      (fun e d' hread => hmoves.of_error hread)
  have hbody : ∀ tag message d, d.rest.length < c.rest.length →
      (Slot.Apart slots → Partial (Slot.Got IsRead) slots message) →
      Ends (readField read slots tag message) d
        (fun message' d' => (Slot.Apart slots → Partial (Slot.Got IsRead) slots message') ∧ d.Moves d')
        (fun _ d' => True ∧ d.Moves d') :=
    fun tag message d hd hmessage =>
      readField_ends policy hemb trivial hslots tag hmessage (by omega)
  have hstop : ∀ e, Cursor.stopAt stop c = .error e → True := fun _ _ => trivial
  have hends := Cursor.readFields_ends hbody (fun _ _ => trivial) (Nat.le_refl _) (partial_initial _) hstop
  exact (hends.of_ok h).1 hapart

/-- A slot that no data came for holds its default, if it has one. -/
theorem find?_of_untouched (hapart : Slot.Apart slots) (hslot : slot ∈ slots)
    (hrep : slot.field.repeated = false) {tags : List Nat}
    (hmerges : Merges slots (initial slots) tags message) (htags : ∀ tag ∈ tags, slot.field.tag ≠ (tag : Int)) :
    Value.find? message slot.field.name =
      if slot.field.default = .none then none else some slot.field.default := by
  rw [hmerges.kept slot hslot htags, initial_eq hapart,
    hapart.find?_filterMap (fun s _ => s.initial?_key) hslot, Slot.initial?, hrep]
  by_cases hdefault : slot.field.default = .none <;> simp [hdefault]

section

variable {emit : Place → Value → Run Unit} (htarget : slot.target = .message q)

include htarget

/-- Writing a slot without default asks only for messages that were read. -/
theorem writeSlot_of_holds
    (hholds : slot.Holds (slot.Got IsRead) (Value.find? message slot.field.name))
    (hdefault : slot.field.default = .none)
    (hemit : ∀ entries, IsRead q (.dict entries) → emit q (.dict entries) = write q (.dict entries)) :
    writeSlot emit (.dict message) slot = writeSlot write (.dict message) slot := by
  have hvalue : ∀ v, slot.Got IsRead v → writeValue emit slot v = writeValue write slot v := by
    intro v hgot
    have hread := hgot.message q htarget
    obtain ⟨entries, rfl⟩ := hread.dict
    simp only [writeValue, htarget, hemit entries hread]
  have hentry : entryOrNone (.dict message) slot = .ok (slot.held message) := rfl
  rw [writeSlot, writeSlot, hentry, lift_ok_bind, lift_ok_bind]
  generalize hfind : Value.find? message slot.field.name = found at hholds
  have hheld : slot.held message = found.getD .none := by rw [Slot.held, hfind]
  rw [hheld]
  cases hholds with
  | absent hrep _ => simp [hrep, isPresent_none]
  | default _ hne => exact absurd hdefault hne
  | single hrep hgot => simp [hrep, hvalue _ hgot]
  | @items items hrep hall =>
    have hpacked : slot.packedAs? = none := by simp [Slot.packedAs?, htarget, Target.scalar?]
    have hitems : items.forM (writeValue emit slot) = items.forM (writeValue write slot) :=
      forM_congr fun v hv => hvalue v (hall v hv)
    simp [hrep, writeItems, hpacked, Value.items?, hitems]

/-- A default is handed on to be written as a message. -/
theorem writeSlot_of_default (hrep : slot.field.repeated = false) (hne : slot.field.default ≠ .none)
    (hfind : Value.find? message slot.field.name = some slot.field.default) :
    writeSlot emit (.dict message) slot =
      Cursor.writeMessage (.int slot.field.tag) (emit q slot.field.default) := by
  have hentry : entryOrNone (.dict message) slot = .ok slot.field.default := by
    rw [entryOrNone, hfind, Option.getD_some]
  have hpresent : isPresent slot slot.field.default = true := by
    simp [isPresent, Slot.isMessage, htarget, Target.isMessage, hne]
  rw [writeSlot, hentry, lift_ok_bind]
  simp [hrep, hpresent, writeValue, htarget]

/-- How a slot with messages of the type at `q` fares in a message that was read from fields with some
tags: what is found of it without data for it, and what its writer hands on. That it hands on nothing but
messages that were read means that another function for embedded messages, alike on those, makes no
difference. -/
structure Fares (slot : Slot) (q : Place) (message : List (Value × Value)) (tags : List Nat) : Prop where
  found : slot.field.repeated = false → (∀ tag ∈ tags, slot.field.tag ≠ (tag : Int)) →
    Value.find? message slot.field.name =
      if slot.field.default = .none then none else some slot.field.default
  handsOnMessages : slot.field.default = .none → ∀ emit : Place → Value → Run Unit,
    (∀ entries, IsRead q (.dict entries) → emit q (.dict entries) = write q (.dict entries)) →
    writeSlot emit (.dict message) slot = writeSlot write (.dict message) slot
  handsOnDefault : slot.field.repeated = false → slot.field.default ≠ .none →
    (∀ tag ∈ tags, slot.field.tag ≠ (tag : Int)) →
    writeSlot write (.dict message) slot =
      Cursor.writeMessage (.int slot.field.tag) (write q slot.field.default)

/-- Every slot with messages fares so when a message is read. -/
theorem fares_of_read (hslots : p.slots = .ok slots) (hapart : Slot.Apart slots) (hslot : slot ∈ slots)
    (h : Cursor.readFields (readField read slots) stop (initial slots) c = .ok message c') :
    ∃ tags, Cursor.readFields (Cursor.recorded (readField read slots)) stop (initial slots, []) c =
        .ok (message, tags) c' ∧ Fares slot q message tags := by
  obtain ⟨tags, hrecorded, hmerges⟩ := readFields_merges hapart (keyed_initial hapart) h
  have hfound := fun hrep htags => find?_of_untouched hapart hslot hrep hmerges htags
  refine ⟨tags, hrecorded, hfound, fun hnone emit hemit => ?_, fun hrep hne htags => ?_⟩
  · exact writeSlot_of_holds htarget ((partial_of_read hslots hapart h).holds slot hslot) hnone hemit
  · exact writeSlot_of_default htarget hrep hne (by rw [hfound hrep htags, if_neg hne])

end

end Codec

end ProtoScribe
