import ProtoScribe.Proofs.Codec.Depth
import ProtoScribe.Proofs.Codec.Reading

/-!
# Entries that go without saying

Reading starts from what the slots say a message holds without data (`read_nothing`). Writing passes over a
slot that the message has no entry for, and over an entry that is not present; so a message can do without
such an entry (`write_of_absent`).
-/

namespace ProtoScribe

namespace Value

/-- Entries that agree on all keys but one. -/
def AgreeApart (key : Value) (a b : List (Value × Value)) : Prop :=
  ∀ other : Value, other.sameKey key = false → find? a other = find? b other

end Value

namespace Codec

open Run

variable {p : Place} {slots : List Slot} {slot : Slot} {a b : List (Value × Value)}

/-- From no bytes at all, a message is read as what it starts with. -/
theorem read_nothing (hslots : p.slots = .ok slots) :
    read p .none (.ofBytes []) = .ok (.dict (initial slots)) (.ofBytes []) := by
  rw [read_eq, hslots, lift_ok_bind]
  rfl

theorem isPresent_none (slot : Slot) : isPresent slot .none = false := by
  unfold isPresent
  split
  · simp
  · split <;> simp [Value.truthy]

/-- A slot that is not repeated is not written if what it holds is not present. -/
theorem writeSlot_of_absent {emit : Place → Value → Run Unit} (hrep : slot.field.repeated = false)
    (h : isPresent slot (slot.held a) = false) : writeSlot emit (.dict a) slot = pure () := by
  have hentry : entryOrNone (.dict a) slot = .ok (slot.held a) := rfl
  rw [writeSlot, hentry, lift_ok_bind]
  simp [hrep, h]

/-- A key that is missing is no error: nothing is written for it. -/
theorem writeSlot_of_missing {emit : Place → Value → Run Unit}
    (h : Value.find? a slot.field.name = none) : writeSlot emit (.dict a) slot = pure () := by
  have hentry : entryOrNone (.dict a) slot = .ok .none := by rw [entryOrNone, h, Option.getD_none]
  rw [writeSlot, hentry, lift_ok_bind, isPresent_none]
  simp [Value.truthy]

theorem forM_congr {α : Type} {as : List α} {f g : α → Run Unit} (h : ∀ a ∈ as, f a = g a) :
    as.forM f = as.forM g := by
  induction as with
  | nil => rfl
  | cons first rest ih =>
    rw [List.forall_mem_cons] at h
    simp only [List.forM, h.1, ih h.2]

/-- The default of a slot with values of a built-in type is not present. -/
theorem isPresent_default (hscalar : slot.isMessage = false) (hne : slot.field.default ≠ .none)
    (hself : slot.field.default.equals slot.field.default = true) :
    isPresent slot slot.field.default = false := by
  unfold isPresent
  rw [if_neg (by simp [hscalar, hne])]
  split
  · simp [hself]
  · next hfalse => simpa using hfalse

/-- An empty message is written as nothing. -/
theorem write_empty (hslots : p.slots = .ok slots) : write p (.dict []) = pure () := by
  have hall : ∀ slot ∈ slots, writeSlot write (.dict []) slot = pure () :=
    fun slot _ => writeSlot_of_missing rfl
  rw [write_eq, hslots, lift_ok_bind, forM_congr hall]
  clear hall hslots
  induction slots with
  | nil => rfl
  | cons first rest ih => simpa using ih

/-- An entry that is not present for its slot is written as if it was not there. -/
theorem write_of_absent (hslots : p.slots = .ok slots) (hapart : Slot.Apart slots) (hslot : slot ∈ slots)
    (hrep : slot.field.repeated = false) (ha : isPresent slot (slot.held a) = false)
    (hb : Value.find? b slot.field.name = none) (hab : Value.AgreeApart slot.field.name a b) :
    write p (.dict a) = write p (.dict b) := by
  rw [write_eq, write_eq, hslots, lift_ok_bind, lift_ok_bind]
  apply forM_congr
  intro other hother
  cases hkey : other.field.name.sameKey slot.field.name with
  | true =>
    rw [hapart.eq_of_sameKey hother hslot hkey, writeSlot_of_absent hrep ha, writeSlot_of_missing hb]
  | false => simp only [writeSlot, entryOrNone, hab _ hkey]

end Codec

end ProtoScribe
