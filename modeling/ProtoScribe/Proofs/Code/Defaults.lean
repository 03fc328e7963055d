import ProtoScribe.Proofs.Code.Safety
import ProtoScribe.Proofs.Codec.Defaults
import ProtoScribe.Proofs.Scope.Defaults

/-!
# Defaults of fields with messages

A field with messages should have no default. It has one in a single case: it is not repeated, and its type
is declared under the name of a built-in type that has a zero (`Field.hidesZero`). Resolution finds the
declared type, but the zero is looked up by name.

Without a default, a message that is read has no entry for the field unless there is data for it, and
writing hands on nothing but messages that were read. With one, the default stands in the message, and it is
handed on to be written as a message (`message_defaults_come_from_hidden_types`).
-/

namespace ProtoScribe.Code

open Run

variable {s : Schema} {p q : Place} {f : Field}

/-- A field with messages has a default exactly if it is not repeated and its type is named like a built-in
type with a zero; and then the default is no message. If the fields of a message have different names, such
a field fares accordingly: a message that is read without data for it has no entry for it, or the default,
and writing that message hands on messages that were read, or the default. -/
theorem message_defaults_come_from_hidden_types {root : Scope} (hroot : s.context = .ok root)
    (hp : p ∈ root.walk) (hf : f ∈ p.scope.fields) (ht : p.target f = .ok (.message q)) :
    (f.default = .none ↔ f.repeated = true ∨ f.hidesZero = false) ∧
    (∀ entries, f.default ≠ .dict entries) ∧
    ∀ options m path, Compiled s options m p path → options.noRead = false →
      (p.scope.fields.Pairwise fun g h => g.name.sameKey h.name = false) →
      ∃ slots slot, p.slots = .ok slots ∧ slot ∈ slots ∧ slot.field = f ∧
        (options.noWrite = false → ∀ v, m.write path v = slots.forM (Codec.writeSlot Codec.write v)) ∧
        ∀ stop c v c', m.read path stop c = .ok v c' → ∃ message tags, v = .dict message ∧
          Cursor.readFields (Cursor.recorded (Codec.readField Codec.read slots)) stop
            (Codec.initial slots, []) c = .ok (message, tags) c' ∧
          Codec.Fares slot q message tags := by
  have hp := Scope.mem_walk_iff.1 hp
  refine ⟨Schema.default_eq_none_iff hroot hp hf ht, ?_, fun options m path h hr hnames => ?_⟩
  · obtain ⟨p₀, f₀, type, d, -, -, hd, rfl⟩ := Schema.fields_default hroot hp hf
    intro entries
    cases f₀.repeated with
    | true => simp
    | false => exact absentValue_ne_dict hd entries
  · obtain ⟨slots, hslots⟩ := h.exists_slots hr
    have hapart : Slot.Apart slots := by
      rw [← Place.slots_fields hslots, List.pairwise_map] at hnames
      exact hnames
    obtain ⟨slot, hslot, rfl, htarget⟩ := Outcome.exists_right (Place.slots_ok hslots) hf
    rw [ht] at htarget
    refine ⟨slots, slot, hslots, hslot, rfl, fun hw v => ?_, fun stop c v c' hread => ?_⟩
    · rw [h.write_eq hw, Codec.write_eq, hslots, lift_ok_bind]
    · rw [h.read_eq hr] at hread
      obtain ⟨message, rfl, hfields⟩ := Codec.read_ok hslots hread
      obtain ⟨tags, hrecorded, hfares⟩ :=
        Codec.fares_of_read (Except.ok.inj htarget).symm hslots hapart hslot hfields
      exact ⟨message, tags, rfl, hrecorded, hfares⟩

/-- A message with the name of a built-in type, and a message with a field of that name and one of its
own. -/
def shadowSchema : Schema where
  version := .proto3
  package := .none
  enums := []
  messages := [
    ⟨.str "int32", [{ name := .str "deep", type := .str "bool", tag := 1 }], [], []⟩,
    ⟨.str "Shadow", [
      { name := .str "inner", type := .str "int32", tag := 1 },
      { name := .str "next", type := .str "Shadow", tag := 2 }], [], []⟩]

/-- Whether a field holds messages. -/
def embeds (p : Place) (f : Field) : Bool :=
  match p.target f with
  | .ok t => t.isMessage
  | .error _ => false

theorem exists_target_of_embeds (h : embeds p f = true) : ∃ q, p.target f = .ok (.message q) := by
  unfold embeds at h
  split at h
  · next t ht =>
    cases t with
    | message q => exact ⟨q, ht⟩
    | scalar _ | enumeration _ => cases h
  · cases h

/-- Whether a message has two fields with messages, of which the first hides the zero of a built-in type. -/
def hidesFirst (p : Place) : Bool :=
  match p.scope.fields with
  | [first, second] =>
    embeds p first && embeds p second && first.hidesZero && !first.repeated && !second.hidesZero &&
      !second.repeated && !first.name.sameKey second.name
  | _ => false

/-- A message that is read from no bytes has an entry for the field that hides a built-in type, and none for
the other one. -/
theorem shadow_holds_hidden_default : ∃ m p first second message c,
    Compiled shadowSchema {} m p "Shadow" ∧ p.scope.fields = [first, second] ∧ first.default ≠ .none ∧
    second.default = .none ∧ m.read "Shadow" .none (.ofBytes []) = .ok (.dict message) c ∧
    Value.find? message first.name = some first.default ∧ Value.find? message second.name = none := by
  obtain ⟨m, p, h, hcheck⟩ : ∃ m p, Compiled shadowSchema {} m p "Shadow" ∧ hidesFirst p = true :=
    exists_compiled _ (by decide +kernel) (by decide +kernel) (by decide +kernel)
  obtain ⟨root, hroot, hp⟩ := h.within
  obtain ⟨slots, hslots⟩ := h.exists_slots rfl
  have hread : m.read "Shadow" .none (.ofBytes []) = .ok (.dict (Codec.initial slots)) (.ofBytes []) := by
    rw [h.read_eq rfl, Codec.read_nothing hslots]
  unfold hidesFirst at hcheck
  split at hcheck
  · next first second hfields =>
    simp only [Bool.and_eq_true, Bool.not_eq_true'] at hcheck
    obtain ⟨⟨⟨⟨⟨⟨hfirst, hsecond⟩, hhides⟩, hone⟩, hplain⟩, htwo⟩, hapart⟩ := hcheck
    have hnames : p.scope.fields.Pairwise fun g h => g.name.sameKey h.name = false := by
      simp [hfields, hapart]
    have hfield : ∀ f ∈ p.scope.fields, embeds p f = true → f.repeated = false →
        (f.default = .none ↔ f.hidesZero = false) ∧ Value.find? (Codec.initial slots) f.name =
          if f.default = .none then none else some f.default := by
      intro f hf hembeds hrep
      obtain ⟨q, hq⟩ := exists_target_of_embeds hembeds
      obtain ⟨hiff, -, hcodec⟩ := message_defaults_come_from_hidden_types hroot hp hf hq
      obtain ⟨slots', slot, hslots', -, rfl, -, hfares⟩ := hcodec {} m "Shadow" h rfl hnames
      cases hslots.symm.trans hslots'
      obtain ⟨message, tags, hmessage, hrecorded, hfares⟩ := hfares _ _ _ _ hread
      cases hmessage
      -- no bytes are no fields
      cases hrecorded
      exact ⟨by simpa [hrep] using hiff, hfares.found hrep (by simp)⟩
    obtain ⟨hiff₁, hfind₁⟩ := hfield first (by simp [hfields]) hfirst hone
    obtain ⟨hiff₂, hfind₂⟩ := hfield second (by simp [hfields]) hsecond htwo
    have hne : first.default ≠ .none := by simp [hiff₁, hhides]
    have hnone : second.default = .none := hiff₂.2 hplain
    rw [if_neg hne] at hfind₁
    rw [if_pos hnone] at hfind₂
    exact ⟨m, p, first, second, _, _, h, hfields, hne, hnone, hread, hfind₁, hfind₂⟩
  · cases hcheck

/-- A message that is read from some bytes as a value, and can not be written from that value: where a
message should be handed on, something without members is. -/
def ReadsUnwritable (m : Module) (path : String) (bytes : List UInt8) (v : Value) : Prop :=
  ∃ c d, m.read path .none (.ofBytes bytes) = .ok v c ∧ m.write path v .empty = .error .noMember d

/-- Whether this is so in the module of a schema. -/
def readsUnwritable (s : Schema) (path : String) (bytes : List UInt8) (v : Value) : Bool :=
  match Module.ofSchema s {} with
  | .ok m => match m.read path .none (.ofBytes bytes), m.write path v .empty with
    | .ok v' _, .error e _ => v' = v && e = .noMember
    | _, _ => false
  | .error _ => false

/-- What is decided on fields holds of the compiled module. -/
theorem of_readsUnwritable {path : String} {bytes : List UInt8} {v : Value}
    (h : readsUnwritable s path bytes v = true) :
    ∃ m, Module.ofSchema s {} = .ok m ∧ ReadsUnwritable m path bytes v := by
  unfold readsUnwritable at h
  split at h
  · next m hm =>
    split at h
    · next v' c e d hread hwrite =>
      simp only [Bool.and_eq_true, decide_eq_true_eq] at h
      obtain ⟨rfl, rfl⟩ := h
      exact ⟨m, hm, c, d, hread, hwrite⟩
    · cases h
  · cases h

/-- A message with two fields of one name, of which the first holds messages and the second has a zero. -/
def twinSchema : Schema where
  version := .proto3
  package := .none
  enums := []
  messages := [
    ⟨.str "Leaf", [{ name := .str "deep", type := .str "bool", tag := 1 }], [], []⟩,
    ⟨.str "Twin", [
      { name := .str "part", type := .str "Leaf", tag := 1 },
      { name := .str "part", type := .str "int32", tag := 2 }], [], []⟩]

/-- A message with a dot in its name, and a message that has the same qualified name without one. -/
def dottedSchema : Schema where
  version := .proto3
  package := .none
  enums := []
  messages := [⟨.str "Tree", [], [], [
    ⟨.str "Leaf", [], [], [⟨.str "Vein", [{ name := .str "part", type := .str "int32", tag := 2 }], [], []⟩]⟩,
    ⟨.str "Leaf.Vein", [{ name := .str "part", type := .str "Cell", tag := 1 }], [], []⟩,
    ⟨.str "Cell", [{ name := .str "size", type := .str "int32", tag := 1 }], [], []⟩]⟩]

/-- A field whose type hides a built-in one has the default zero, which is read from no bytes and can not be
written as a message. Where two fields have one name, the zero of the other field is handed on in the same
way; and where a type has a dot in its name, the code of another type may have read what is handed on. -/
theorem default_is_handed_on :
    (∃ m p f q, Compiled shadowSchema {} m p "Shadow" ∧ f ∈ p.scope.fields ∧
      p.target f = .ok (.message q) ∧ f.default = .int 0 ∧
      ReadsUnwritable m "Shadow" [] (.dict [(.str "inner", .int 0)])) ∧
    (∃ m, Module.ofSchema twinSchema {} = .ok m ∧
      ReadsUnwritable m "Twin" [] (.dict [(.str "part", .int 0)])) ∧
    ∃ m, Module.ofSchema dottedSchema {} = .ok m ∧
      ReadsUnwritable m "Tree.Vein" [0x10, 5] (.dict [(.str "part", .int 5)]) := by
  refine ⟨?_, of_readsUnwritable (by decide +kernel), of_readsUnwritable (by decide +kernel)⟩
  obtain ⟨m, p, h, hcheck⟩ : ∃ m p, Compiled shadowSchema {} m p "Shadow" ∧
      p.scope.fields.any (fun f => embeds p f && f.default = .int 0) = true :=
    exists_compiled (fun p => p.scope.fields.any fun f => embeds p f && f.default = .int 0)
      (by decide +kernel) (by decide +kernel) (by decide +kernel)
  simp only [List.any_eq_true, Bool.and_eq_true, decide_eq_true_eq] at hcheck
  obtain ⟨f, hf, hembeds, hdefault⟩ := hcheck
  obtain ⟨q, hq⟩ := exists_target_of_embeds hembeds
  have hsteps : readsUnwritable shadowSchema "Shadow" [] (.dict [(.str "inner", .int 0)]) = true := by
    decide +kernel
  obtain ⟨m', hm', hsteps⟩ := of_readsUnwritable hsteps
  cases h.loaded.symm.trans hm'
  exact ⟨m, p, f, q, h, hf, hq, hdefault, hsteps⟩

end ProtoScribe.Code
