import ProtoScribe.Proofs.Code.RoundTrip
import ProtoScribe.Proofs.Codec.Merging

/-!
# Generated code merges messages in a row

Reading two messages in a row is reading the first, and then the fields of the second into the result:
with the same outcome, and a fault of the same kind if there is one (`rows_of_messages_merge`). This
holds whatever bytes the first message was read from.
-/

namespace ProtoScribe.Code

open Run

variable {s : Schema} {options : Options} {m : Module} {p : Place} {path : String} {slots : List Slot}

/-- Reading into a message is handing its fields to the slots. -/
theorem Compiled.readInto_eq (h : Compiled s options m p path) (hr : options.noRead = false)
    (hslots : p.slots = .ok slots) (stop : Value) (message : List (Value × Value)) :
    m.readInto path stop (.dict message) =
      Value.dict <$> Cursor.readFields (Codec.readField Codec.read slots) stop message := by
  obtain ⟨root, -, hp, hlinked⟩ := h.linked
  obtain ⟨name, members, hname, hclass, -, -, hexported⟩ := hlinked p hp h.isMessage
  rw [h.path_eq] at hname
  cases hname
  obtain ⟨name, chain, -, hchain, -, hfield⟩ := hclass.reader hr
  have hfunction : m.function path "_read_field" = .ok (fieldFunction chain) := by
    have hlookup : members.lookup "_read_field" = some (.function (fieldFunction chain)) := hfield
    simp only [Module.function, hexported, hlookup]
  funext c
  have hfields := Cursor.readFields_map
    (onField_fieldFunction (invoke_read hlinked hr c.rest.length) hp hslots hchain) stop message
  -- every embedded message starts with fewer bytes left, so it is read with depth enough
  have hdepth := Cursor.readFields_congr
    (fun tag message d hd => Codec.readField_congr
      (fun q stop d hd => Codec.readNested_depth q stop (Nat.le_refl _) hd (Nat.lt_succ_self _))
      slots tag message (Nat.le_of_lt hd))
    (Codec.reads_readField (Codec.reads_readNested c.rest.length) slots) stop message (Nat.le_refl _)
  rw [Module.readInto, hfunction, lift_ok_bind, bind_apply, get_apply]
  show Cursor.readFields (onField (invoke m.globals (2 * c.rest.length + 1)) (fieldFunction chain)) stop
    (.dict message) c = _
  rw [hfields, map_apply, map_apply, hdepth]
  rfl

/-- Reading two messages in a row has the outcome of reading the second into the first. Lists are
extended, and a slot that no field of the second message belongs to keeps what it holds. -/
theorem rows_of_messages_merge (h : Compiled s options m p path) (hr : options.noRead = false)
    (hnames : s.fieldsApart = true) {first : List UInt8} {v : Value} {c : Cursor}
    (hread : m.read path .none (.ofBytes first) = .ok v c) (second : List UInt8) :
    (∀ v' d, m.readInto path .none v (.ofBytes second) = .ok v' d →
      (∃ d', m.read path .none (.ofBytes (first ++ second)) = .ok v' d' ∧ d'.pos = d.pos + first.length) ∧
      ∃ slots before after tags, p.slots = .ok slots ∧ v = .dict before ∧ v' = .dict after ∧
        Cursor.readFields (Cursor.recorded (Codec.readField Codec.read slots)) .none (before, [])
          (.ofBytes second) = .ok (after, tags) d ∧
        Codec.Merges slots before tags after) ∧
    ∀ e d, m.readInto path .none v (.ofBytes second) = .error e d →
      ∃ e' d', m.read path .none (.ofBytes (first ++ second)) = .error e' d' ∧ e'.kind = e.kind := by
  obtain ⟨slots, hslots⟩ := h.exists_slots hr
  obtain ⟨root, hroot, hp, -⟩ := h.linked
  have hapart := Schema.slots_apart hroot hnames hp h.isMessage hslots
  have hfields : m.read path .none =
      Value.dict <$> Cursor.readFields (Codec.readField Codec.read slots) .none (Codec.initial slots) := by
    rw [h.read_eq hr, Codec.read_eq, hslots, lift_ok_bind, map_eq_pure_bind]
  obtain ⟨before, rfl, hbefore⟩ : ∃ before, v = .dict before ∧
      Cursor.readFields (Codec.readField Codec.read slots) .none (Codec.initial slots) (.ofBytes first) =
        .ok before c := by
    rw [hfields, map_apply] at hread
    split at hread
    · next before d hbefore =>
      cases hread
      exact ⟨before, rfl, hbefore⟩
    · cases hread
  have hfollows := (Codec.readFields_merge slots hbefore second).map Value.dict
  rw [← hfields, ← h.readInto_eq hr hslots] at hfollows
  constructor
  · intro v' d hinto
    obtain ⟨d', hwhole, hshifted⟩ := hfollows.of_ok hinto
    refine ⟨⟨d', hwhole, hshifted.pos_eq⟩, ?_⟩
    -- the keys of the first message are names of slots, which is what merging asks for
    obtain ⟨_, -, hfirst⟩ := Codec.readFields_merges hapart (Codec.keyed_initial hapart) hbefore
    rw [h.readInto_eq hr hslots, map_apply] at hinto
    split at hinto
    · next after d hafter =>
      cases hinto
      obtain ⟨tags, hrecorded, hmerges⟩ := Codec.readFields_merges hapart hfirst.keys hafter
      exact ⟨slots, before, after, tags, hslots, rfl, rfl, hrecorded, hmerges⟩
    · cases hinto
  · intro e d hinto
    obtain ⟨e', d', hwhole, hkind, -⟩ := hfollows.of_error hinto rfl
    exact ⟨e', d', hwhole, hkind⟩

/-- A node with a label and two marks; one of the two fields with the tag of the marks is a run. -/
def firstNode : List UInt8 := [0x0a, 0x01, 0x61, 0x18, 0x02, 0x1a, 0x01, 0x04]

def secondNode : List UInt8 := [0x18, 0x06, 0x0a, 0x01, 0x62, 0x22, 0x00]

/-- The message that both are read as, if the second is read into the first. -/
def mergedNode : Value :=
  .dict [(.str "label", .str "b"), (.str "weight", .float .zero),
    (.str "marks", .list [.int 1, .int 2, .int 3]),
    (.str "children", .list [
      .dict [(.str "label", .str "leaf"), (.str "weight", .float .zero), (.str "marks", .list []),
        (.str "children", .list []), (.str "kind", .int 0)]]),
    (.str "kind", .int 0)]

/-- Whether reading one part and then another into it ends with a message. -/
def mergesTo (s : Schema) (path : String) (first second : List UInt8) (v : Value) : Bool :=
  match Module.ofSchema s {} with
  | .ok m => match m.read path .none (.ofBytes first) with
    | .ok v₁ _ => match m.readInto path .none v₁ (.ofBytes second) with
      | .ok v₂ _ => v₂ = v
      | .error _ _ => false
    | .error _ _ => false
  | .error _ => false

/-- Reading twice, as decided, is what the compiled module does. -/
theorem of_mergesTo {first second : List UInt8} {v : Value} (h : mergesTo s path first second v = true)
    (hm : Module.ofSchema s {} = .ok m) : ∃ v₁ c d, m.read path .none (.ofBytes first) = .ok v₁ c ∧
      m.readInto path .none v₁ (.ofBytes second) = .ok v d := by
  unfold mergesTo at h
  rw [hm] at h
  simp only at h
  split at h
  · next v₁ c hread =>
    split at h
    · next v₂ d hinto =>
      cases of_decide_eq_true h
      exact ⟨v₁, c, d, hread, hinto⟩
    · cases h
  · cases h

theorem nodes_merge : ∃ m p v c d d', Compiled treeSchema {} m p "Node" ∧
    m.read "Node" .none (.ofBytes firstNode) = .ok v c ∧
    m.readInto "Node" .none v (.ofBytes secondNode) = .ok mergedNode d ∧
    m.read "Node" .none (.ofBytes (firstNode ++ secondNode)) = .ok mergedNode d' := by
  obtain ⟨m, p, h, -⟩ : ∃ m p, Compiled treeSchema {} m p "Node" ∧ true :=
    exists_compiled (fun _ => true) (by decide +kernel) (by decide +kernel) (by decide +kernel)
  have hcheck : mergesTo treeSchema "Node" firstNode secondNode mergedNode = true := by decide +kernel
  obtain ⟨v, c, d, hfirst, hinto⟩ := of_mergesTo hcheck h.loaded
  obtain ⟨d', hwhole, -⟩ := ((rows_of_messages_merge h rfl (by decide +kernel) hfirst secondNode).1 _ d hinto).1
  exact ⟨m, p, v, c, d, d', h, hfirst, hinto, hwhole⟩

end ProtoScribe.Code
