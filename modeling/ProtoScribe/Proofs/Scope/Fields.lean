import ProtoScribe.Proofs.Codec.Reading
import ProtoScribe.Proofs.Scope.Names

/-!
# Fields of messages

What is asked of the fields that a schema declares holds of the slots of its messages: attaching
defaults and resolving types changes neither names nor tags.
-/

namespace ProtoScribe.Schema

open Place (Within)

/-- Whether the fields of every message have names that are different keys. -/
def fieldsApart (s : Schema) : Bool :=
  s.allMessages.all fun m => decide ((m.fields.map (·.name)).Pairwise fun a b => a.sameKey b = false)

variable {s : Schema} {root : Scope} {p : Place} {slots : List Slot}

/-- The slots of a message are its declared fields, but for their defaults. -/
theorem slots_declared (h : s.context = .ok root) (hp : Within root p) (hkind : p.kind = .message)
    (hslots : p.slots = .ok slots) :
    ∃ m ∈ s.allMessages, slots.map (·.field.bare) = m.fields.map Field.bare := by
  have hbare : slots.map (·.field.bare) = p.scope.fields.map Field.bare := by
    rw [← Place.slots_fields hslots, List.map_map]
    rfl
  cases (context_declared h hp).declares with
  | root kind labels =>
    rw [Place.kind, kind] at hkind
    cases hkind
  | enumeration values kind labels =>
    rw [Place.kind, kind] at hkind
    cases hkind
  | message m mem kind labels fields => exact ⟨m, mem, hbare.trans fields⟩

/-- The slots of a message have names that are different keys. -/
theorem slots_apart (h : s.context = .ok root) (hs : s.fieldsApart = true) (hp : Within root p)
    (hkind : p.kind = .message) (hslots : p.slots = .ok slots) : Slot.Apart slots := by
  obtain ⟨m, hm, hfields⟩ := slots_declared h hp hkind hslots
  have hnames : slots.map (·.field.name) = m.fields.map (·.name) := by
    have := congrArg (List.map (·.name)) hfields
    simpa [Function.comp_def, Field.bare] using this
  have hpairwise := of_decide_eq_true (List.all_eq_true.1 hs m hm)
  rw [← hnames, List.pairwise_map] at hpairwise
  exact hpairwise

end ProtoScribe.Schema
