import ProtoScribe.Codec.Write
import ProtoScribe.Proofs.Codec.Depth
import ProtoScribe.Proofs.Codec.Folding
import ProtoScribe.Proofs.Codec.Scalars

/-!
# Writing appends the encoding

The writer inserts every length behind the fact; the encoder computes it first. On a message that can be
sent the two agree: `write` appends `encode` (`Sendable.appends`), and what `size` computes is the
length of the encoding (`Sendable.length`).

Both are inductions on messages. `Writable` is what they ask of the slots and entries of a message, and
`Sendable` asks it of the messages inside as well. It is a little less than being well-typed: nothing is
asked of a value that goes without saying. A well-typed message whose lengths can be written is sendable
where slots are regular (`sendable_of_conforms`).
-/

namespace ProtoScribe

/-! ## Regular slots -/

/-- Scalars of one kind. -/
inductive Value.Alike : Value → Value → Prop
  | bool (a b : Bool) : Alike (.bool a) (.bool b)
  | int (a b : Int) : Alike (.int a) (.int b)
  | float (a b : Binary64) : Alike (.float a) (.float b)
  | str (a b : String) : Alike (.str a) (.str b)
  | bytes (a b : List UInt8) : Alike (.bytes a) (.bytes b)

/-- The values that can be the default of a field of a built-in type. They may be out of the range of
the type, and there is only one NaN of each sign among them. -/
inductive Scalar.Defaults : Scalar → Value → Prop
  | bool (b : Bool) : Defaults .bool (.bool b)
  | int {t : Scalar} (n : Int) : t.zeroValue = .int 0 → Defaults t (.int n)
  | float {t : Scalar} {x : Binary64} : t.zeroValue = .float .zero → (x.isNaN = true → ∃ negative, x = .nan negative) →
    Defaults t (.float x)
  | str (s : String) : Defaults .string (.str s)

/-- A slot of a built-in type without default, or with one that belongs to the type. -/
def Slot.DefaultFits (s : Slot) : Prop :=
  ∀ t, s.target.scalar? = some t → s.field.default = .none ∨ t.Defaults s.field.default

/-- Slots that a message can be read back by. -/
structure Slot.Regular (slots : List Slot) : Prop where
  names : Slot.Apart slots
  tags : slots.Pairwise fun s t => s.field.tag ≠ t.field.tag
  range : ∀ s ∈ slots, 0 ≤ s.field.tag ∧ s.field.tag < 2 ^ 61
  defaults : ∀ s ∈ slots, s.DefaultFits

/-- A default is like itself, also where it is not a number. -/
theorem Scalar.Defaults.self {t : Scalar} {d : Value} (h : t.Defaults d) : d.Alike d := by
  cases h with
  | bool b => exact .bool b b
  | int n _ => exact .int n n
  | float _ _ => exact .float _ _
  | str s => exact .str s s

/-- A default is of the kind of the values of its type. -/
theorem Scalar.Defaults.alike {t : Scalar} {d v : Value} (h : t.Defaults d) (hv : Codec.isOf t v = true) :
    v.Alike d := by
  cases h with
  | bool b =>
    cases v with
    | bool a => exact .bool a b
    | _ => cases hv
  | int n hzero =>
    cases t with
    | double | float | bool | string | bytes => cases hzero
    | _ =>
      obtain ⟨m, rfl, -⟩ := Codec.of_inRange hv
      exact .int m n
  | float hzero _ =>
    cases t with
    | double | float =>
      cases v with
      | float a => exact .float a _
      | _ => cases hv
    | _ => cases hzero
  | str s =>
    cases v with
    | str a => exact .str a s
    | _ => cases hv

theorem Target.isMessage_eq (t : Target) : t.isMessage = t.scalar?.isNone := by cases t <;> rfl

namespace Codec

open Run

/-! ## Slots of a built-in type

An enumeration is encoded like the built-in type that stands for it, so there are two kinds of slots
only: those with a built-in type, and those with messages. -/

/-- A field carries scalars, enumerations included, or messages. -/
theorem target_cases (s : Slot) : (∃ t, s.target.scalar? = some t) ∨ ∃ q, s.target = .message q := by
  cases s.target with
  | scalar t => exact .inl ⟨t, rfl⟩
  | enumeration q => exact .inl ⟨.enum, rfl⟩
  | message q => exact .inr ⟨q, rfl⟩

section

variable {s : Slot} {t : Scalar} (h : s.target.scalar? = some t) (v : Value)

include h

theorem scalar_cases : s.target = .scalar t ∨ t = .enum ∧ ∃ q, s.target = .enumeration q := by
  cases htarget : s.target with
  | scalar t' =>
    rw [htarget] at h
    cases h
    exact .inl rfl
  | enumeration q =>
    rw [htarget] at h
    cases h
    exact .inr ⟨rfl, q, rfl⟩
  | message q =>
    rw [htarget] at h
    cases h

theorem fits_scalar (embedded : Place → Value → Bool) : fits embedded s v = isOf t v := by
  rcases scalar_cases h with htarget | ⟨rfl, q, htarget⟩ <;> simp only [fits, htarget]

theorem valueLengthsFit_scalar (embedded : Place → Value → Bool) :
    valueLengthsFit embedded s v = isLength (contentOf v).length := by
  rcases scalar_cases h with htarget | ⟨rfl, q, htarget⟩ <;> simp only [valueLengthsFit, htarget]

theorem fieldSize_scalar (embedded : Place → Value → Nat) :
    fieldSize embedded s v = scalarSize s.field.tag t v := by
  rcases scalar_cases h with htarget | ⟨rfl, q, htarget⟩ <;> simp only [fieldSize, htarget]

theorem fieldBytes_scalar (embedded : Place → Value → List UInt8) :
    fieldBytes embedded s v = scalarBytes s.field.tag t v := by
  rcases scalar_cases h with htarget | ⟨rfl, q, htarget⟩ <;> simp only [fieldBytes, htarget]

theorem writeValue_scalar (embedded : Place → Value → Run Unit) :
    writeValue embedded s v = Cursor.writeField t.coding (.int s.field.tag) v := by
  rcases scalar_cases h with htarget | ⟨rfl, q, htarget⟩ <;> simp only [writeValue, htarget]

end

/-- Only repeated scalars are packed, and those only that a reader would accept as a run. -/
theorem packedAs?_eq_some {s : Slot} {t : Scalar} (h : s.packedAs? = some t) :
    s.field.repeated = true ∧ s.target.scalar? = some t ∧ s.runType? = some t := by
  unfold Slot.packedAs? at h
  split at h
  · next hpacked =>
    simp only [Field.isPacked, Field.packable, Bool.and_eq_true] at hpacked
    refine ⟨hpacked.2.1, h, ?_⟩
    rw [Slot.runType?, if_pos hpacked.2.2, h]
  · cases h

theorem packedAs?_of_single {s : Slot} (h : s.field.repeated = false) : s.packedAs? = none := by
  rw [Option.eq_none_iff_forall_ne_some]
  intro t ht
  rw [(packedAs?_eq_some ht).1] at h
  cases h

theorem carried_of_single {s : Slot} (h : s.field.repeated = false) (entries : List (Value × Value)) :
    s.carried entries = if s.omits (s.held entries) then [] else [s.held entries] := by
  unfold Slot.carried
  rw [h]
  rfl

section

variable {s : Slot} {entries : List (Value × Value)} (embedded : Place → Value → List UInt8)

/-- Nothing is written for a field that carries nothing, not even an empty run. -/
theorem slotBytes_of_nil (h : s.carried entries = []) : slotBytes embedded entries s = [] := by
  unfold slotBytes
  rw [h]
  cases s.packedAs? <;> rfl

theorem slotBytes_of_run {t : Scalar} (ht : s.packedAs? = some t) (hne : s.carried entries ≠ []) :
    slotBytes embedded entries s = runBytes s.field.tag t (s.carried entries) := by
  unfold slotBytes
  rw [ht]
  cases hvalues : s.carried entries with
  | nil => exact absurd hvalues hne
  | cons v values => rfl

theorem slotBytes_of_fields (ht : s.packedAs? = none) :
    slotBytes embedded entries s = (s.carried entries).flatMap (fieldBytes embedded s) := by
  unfold slotBytes
  rw [ht]

end

/-! ## Messages that can be written -/

/-- Places where slots are regular, also those of the messages inside. -/
structure Regular (Good : Place → Prop) : Prop where
  slots : ∀ p slots, Good p → p.slots = .ok slots → Slot.Regular slots
  embedded : ∀ p slots s q, Good p → p.slots = .ok slots → s ∈ slots → s.target = .message q → Good q

/-- What writing asks of the slots and entries of a message. -/
structure Writable (slots : List Slot) (entries : List (Value × Value)) : Prop where
  regular : Slot.Regular slots
  lists : ∀ s ∈ slots, s.field.repeated = true →
    s.held entries = .none ∨ ∃ items, s.held entries = .list items
  present : ∀ s ∈ slots, s.field.repeated = false →
    isPresent s (s.held entries) = !s.omits (s.held entries)
  typed : ∀ s ∈ slots, ∀ t, s.target.scalar? = some t → ∀ v ∈ s.carried entries, isOf t v = true
  lengths : ∀ s ∈ slots, slotLengthsFit lengthsFit entries s = true

/-- Messages that can be written, down to the messages inside. -/
inductive Sendable : Place → Value → Prop
  | intro {p : Place} {slots : List Slot} {entries : List (Value × Value)} : p.slots = .ok slots →
    Writable slots entries →
    (∀ s ∈ slots, ∀ q, s.target = .message q → ∀ v ∈ s.carried entries, Sendable q v) →
    Sendable p (.dict entries)

section

variable {slots : List Slot} {entries : List (Value × Value)} {s : Slot} {v : Value} {t : Scalar}

theorem Writable.value (h : Writable slots entries) (hs : s ∈ slots) (hv : v ∈ s.carried entries) :
    valueLengthsFit lengthsFit s v = true := by
  have hlength := h.lengths s hs
  simp only [slotLengthsFit, Bool.and_eq_true, List.all_eq_true] at hlength
  exact hlength.1 v hv

theorem Writable.scalar (h : Writable slots entries) (hs : s ∈ slots) (hv : v ∈ s.carried entries)
    (ht : s.target.scalar? = some t) : isOf t v = true ∧ isLength (contentOf v).length = true := by
  have hlength := h.value hs hv
  rw [valueLengthsFit_scalar ht] at hlength
  exact ⟨h.typed s hs t ht v hv, hlength⟩

/-- The size of an embedded message fits its length prefix. -/
theorem Writable.size (h : Writable slots entries) (hs : s ∈ slots) (hv : v ∈ s.carried entries)
    {q : Place} (hq : s.target = .message q) : Codec.size q v < 2 ^ 64 := by
  have hlength := h.value hs hv
  simp only [valueLengthsFit, hq, Bool.and_eq_true] at hlength
  exact of_decide_eq_true hlength.1

/-- The size of a packed run fits its length prefix. -/
theorem Writable.run (h : Writable slots entries) (hs : s ∈ slots) (ht : s.packedAs? = some t) :
    runSize t (s.carried entries) < 2 ^ 64 := by
  have hlength := h.lengths s hs
  simp only [slotLengthsFit, ht, Bool.and_eq_true] at hlength
  exact of_decide_eq_true hlength.2

/-- What a repeated slot holds is the list of what it carries, if it is a list. -/
theorem Writable.repeated (h : Writable slots entries) (hs : s ∈ slots) (hrep : s.field.repeated = true) :
    s.held entries = .none ∧ s.carried entries = [] ∨ s.held entries = .list (s.carried entries) := by
  unfold Slot.carried
  rw [if_pos hrep]
  rcases h.lists s hs hrep with hnone | ⟨items, hitems⟩
  · rw [hnone]
    exact .inl ⟨rfl, rfl⟩
  · rw [hitems]
    exact .inr rfl

end

variable {Good : Place → Prop} {p : Place} {v : Value} {s : Slot} {slots : List Slot}
  {entries : List (Value × Value)}

/-! ## Sizes -/

theorem runBytes_length {tag : Int} (htag : 0 ≤ tag ∧ tag < 2 ^ 61) {t : Scalar} {values : List Value}
    (hvalues : ∀ v ∈ values, isLength (contentOf v).length = true) (hrun : runSize t values < 2 ^ 64) :
    (values.flatMap (valueBytes t.coding)).length = runSize t values ∧
      (runBytes tag t values).length = varintSize (keyNumber tag 2) + framedSize (runSize t values) := by
  have hkey := Wire.varint_length (keyNumber_lt htag (by decide : 2 < 8))
  have hcontent : (values.flatMap (valueBytes t.coding)).length = runSize t values :=
    length_flatMap fun v hv => valueBytes_length t.coding (hvalues v hv)
  refine ⟨hcontent, ?_⟩
  simp only [runBytes, List.length_append, hkey, hcontent, Wire.varint_length hrun, framedSize,
    Nat.add_assoc]

/-- The predicted size of a field is the length of its bytes. -/
theorem fieldBytes_length (h : Writable slots entries) (hs : s ∈ slots) (hv : v ∈ s.carried entries)
    (hemb : ∀ q, s.target = .message q → (encode q v).length = size q v) :
    (fieldBytes encode s v).length = fieldSize size s v := by
  have htag := h.regular.range s hs
  rcases target_cases s with ⟨t, ht⟩ | ⟨q, hq⟩
  · have hkey := Wire.varint_length (keyNumber_lt htag (wireType_lt t.coding))
    have hvalue := valueBytes_length t.coding (h.scalar hs hv ht).2
    rw [fieldBytes_scalar ht, fieldSize_scalar ht, scalarBytes, List.length_append, hkey, hvalue, scalarSize]
  · have hkey := Wire.varint_length (keyNumber_lt htag (by decide : 2 < 8))
    have hsize := Wire.varint_length (h.size hs hv hq)
    simp only [fieldBytes, fieldSize, hq, List.length_append, hkey, hsize, hemb q hq, framedSize,
      Nat.add_assoc]

/-- The size of a message is the length of its encoding. -/
theorem Sendable.length (h : Sendable p v) : (encode p v).length = size p v := by
  induction h with
  | intro hslots h _ ih =>
    rw [encode_eq hslots, size_eq hslots]
    refine length_flatMap fun s hs => ?_
    unfold slotBytes slotSize
    split
    · rfl
    · next t ht _ =>
      have hscalar := (packedAs?_eq_some ht).2.1
      exact (runBytes_length (h.regular.range s hs) (fun v hv => (h.scalar hs hv hscalar).2) (h.run hs ht)).2
    · refine length_flatMap fun v hv => ?_
      exact fieldBytes_length h hs hv fun q hq => ih s hs q hq v hv

/-! ## Presence -/

/-- Beside a default that counts as false, a value counts as false if and only if it is equal to the
default. -/
theorem truthy_eq_not_equals {d : Value} (h : v.Alike d) (hfalse : d.truthy = false) :
    v.truthy = !v.equals d := by
  cases h with
  | bool a b =>
    cases hfalse
    cases a <;> rfl
  | int a b =>
    simp only [Value.truthy, bne_eq_false_iff_eq] at hfalse
    simp only [Value.truthy, Value.equals, hfalse, bne]
  | float a b =>
    have hzero : b.isZero = true := by simpa [Value.truthy] using hfalse
    simp only [Value.truthy, Value.equals, Binary64.equals_of_isZero hzero]
  | str a b =>
    simp only [Value.truthy, Bool.not_eq_false', String.isEmpty_iff] at hfalse
    subst hfalse
    have hempty : a.isEmpty = (a == "") := by
      rw [Bool.eq_iff_iff]
      simp
    simp [Value.truthy, Value.equals, hempty]
  | bytes a b =>
    simp only [Value.truthy, Bool.not_eq_false', List.isEmpty_iff] at hfalse
    subst hfalse
    simp [Value.truthy, Value.equals]

/-- What is written is what does not go without saying. -/
theorem isPresent_eq (h : ∀ t, s.target.scalar? = some t →
    v = .none ∨ s.field.default = .none ∨ v.Alike s.field.default) :
    isPresent s v = !s.omits v := by
  unfold isPresent Slot.omits
  by_cases hplain : s.isMessage = true ∨ s.field.default = .none
  · rw [if_pos hplain]
    rcases hplain with hmessage | hnone
    · simp [hmessage]
    · simp [hnone]
  · rw [if_neg hplain]
    obtain ⟨hscalar, hne⟩ := not_or.1 hplain
    cases htruthy : s.field.default.truthy with
    | true => simp [hscalar, hne]
    | false =>
      rcases target_cases s with ⟨t, ht⟩ | ⟨q, hq⟩
      · rcases h t ht with rfl | hnone | hkind
        · simp [Value.truthy]
        · exact absurd hnone hne
        · have hnone : v ≠ .none := by
            rintro rfl
            cases hkind
          simp [truthy_eq_not_equals hkind htruthy, hscalar, hne, hnone]
      · exact absurd (by rw [Slot.isMessage, hq]; rfl) hscalar

/-! ## Writing -/

/-- A value is written as its key and its bytes, given that embedded messages are. -/
theorem appends_writeValue (htag : 0 ≤ s.field.tag ∧ s.field.tag < 2 ^ 61)
    (hscalar : ∀ t, s.target.scalar? = some t → isOf t v = true)
    (hemb : ∀ q, s.target = .message q →
      Appends (write q v) (encode q v) ∧ (encode q v).length = size q v) :
    Appends (writeValue write s v) (fieldBytes encode s v) := by
  rcases target_cases s with ⟨t, ht⟩ | ⟨q, hq⟩
  · rw [writeValue_scalar ht, fieldBytes_scalar ht]
    have hkey := Cursor.appends_writeTag htag (wireType_lt t.coding)
    exact hkey.bind (appends_write (hscalar t ht))
  · obtain ⟨hwrite, hlength⟩ := hemb q hq
    simp only [writeValue, fieldBytes, hq]
    rw [← hlength, List.append_assoc]
    exact Cursor.appends_writeMessage htag hwrite

theorem appends_writeEach {coding : Wire.Coding} {values : List Value}
    (h : ∀ v ∈ values, Appends (Cursor.write coding v) (valueBytes coding v)) :
    Appends (Cursor.writeEach coding values) (values.flatMap (valueBytes coding)) := by
  induction values with
  | nil => exact appends_nothing
  | cons v values ih =>
    rw [List.flatMap_cons]
    exact (h v (by simp)).bind (ih fun u hu => h u (by simp [hu]))

/-- A run of values, which may be empty. -/
theorem appends_run {tag : Int} (htag : 0 ≤ tag ∧ tag < 2 ^ 61) {t : Scalar} {values : List Value}
    (hvalues : ∀ v ∈ values, isOf t v = true ∧ isLength (contentOf v).length = true)
    (hrun : runSize t values < 2 ^ 64) :
    Appends (Cursor.writeMessage (.int tag) (Cursor.writeEach t.coding values)) (runBytes tag t values) := by
  have hcontent := (runBytes_length htag (fun v hv => (hvalues v hv).2) hrun).1
  have heach := appends_writeEach fun v hv => appends_write (hvalues v hv).1
  have hframed := Cursor.appends_writeMessage htag heach
  rwa [hcontent, ← List.append_assoc] at hframed

/-- Items are written one by one, or as one run. -/
theorem appends_writeItems (h : Writable slots entries) (hs : s ∈ slots)
    (hheld : s.held entries = .list (s.carried entries)) (hne : s.carried entries ≠ [])
    (hvalue : ∀ v ∈ s.carried entries, Appends (writeValue write s v) (fieldBytes encode s v)) :
    Appends (writeItems write s (s.held entries)) (slotBytes encode entries s) := by
  unfold writeItems
  rw [hheld]
  cases ht : s.packedAs? with
  | none =>
    rw [slotBytes_of_fields encode ht]
    exact .forM hvalue
  | some t =>
    have htruthy : (Value.list (s.carried entries)).truthy = true := by simpa [Value.truthy] using hne
    rw [slotBytes_of_run encode ht hne]
    simp only [Cursor.writePacked, htruthy, if_true]
    exact appends_run (h.regular.range s hs) (fun v hv => h.scalar hs hv (packedAs?_eq_some ht).2.1)
      (h.run hs ht)

/-- A field writes its bytes if the messages in it do. -/
theorem appends_writeSlot (h : Writable slots entries) (hs : s ∈ slots)
    (hemb : ∀ q, s.target = .message q → ∀ v ∈ s.carried entries,
      Appends (write q v) (encode q v) ∧ (encode q v).length = size q v) :
    Appends (writeSlot write (.dict entries) s) (slotBytes encode entries s) := by
  have hvalue : ∀ v ∈ s.carried entries, Appends (writeValue write s v) (fieldBytes encode s v) :=
    fun v hv => appends_writeValue (h.regular.range s hs) (fun t ht => h.typed s hs t ht v hv)
      fun q hq => hemb q hq v hv
  have hentry : entryOrNone (.dict entries) s = .ok (s.held entries) := rfl
  rw [writeSlot, hentry, lift_ok_bind]
  cases hrep : s.field.repeated with
  | true =>
    simp only [if_true]
    rcases h.repeated hs hrep with ⟨hnone, hnil⟩ | hlist
    · rw [slotBytes_of_nil encode hnil, hnone]
      exact appends_nothing
    · by_cases hnil : s.carried entries = []
      · rw [slotBytes_of_nil encode hnil, hlist, hnil]
        exact appends_nothing
      · have htruthy : (s.held entries).truthy = true := by simpa [hlist, Value.truthy] using hnil
        rw [if_pos htruthy]
        exact appends_writeItems h hs hlist hnil hvalue
  | false =>
    have hcarried := carried_of_single hrep entries
    rw [slotBytes_of_fields encode (packedAs?_of_single hrep)]
    simp only [Bool.false_eq_true, if_false, h.present s hs hrep]
    cases homits : s.omits (s.held entries) with
    | true =>
      rw [hcarried, homits]
      exact appends_nothing
    | false =>
      rw [homits] at hcarried
      have hwrite := hvalue (s.held entries) (by simp [hcarried])
      rw [hcarried]
      simpa using hwrite

/-- Writing a message appends its encoding. -/
theorem Sendable.appends (h : Sendable p v) : Appends (write p v) (encode p v) := by
  induction h with
  | intro hslots h hinside ih =>
    rw [write_eq, hslots, lift_ok_bind, encode_eq hslots]
    refine .forM fun s hs => appends_writeSlot h hs fun q hq v hv => ?_
    exact ⟨ih s hs q hq v hv, (hinside s hs q hq v hv).length⟩

/-! ## Well-typed messages -/

/-- The conditions on a message, gathered from its slots. -/
theorem writable_of_fits (hregular : Slot.Regular slots)
    (hfits : ∀ s ∈ slots, slotFits conforms entries s = true)
    (hlengths : ∀ s ∈ slots, slotLengthsFit lengthsFit entries s = true) : Writable slots entries where
  regular := hregular
  lengths := hlengths
  lists := by
    intro s hs hrep
    have hfit := hfits s hs
    unfold slotFits at hfit
    rw [hrep] at hfit
    split at hfit
    · next hnone => exact .inl hnone
    · next items hitems _ => exact .inr ⟨items, hitems⟩
    · cases hfit
    · next hfalse _ => cases hfalse
  present := by
    intro s hs hrep
    have hfit := hfits s hs
    apply isPresent_eq
    intro t ht
    unfold slotFits at hfit
    rw [hrep] at hfit
    split at hfit
    · next hnone => exact .inl hnone
    · next htrue => cases htrue
    · cases hfit
    · rw [fits_scalar ht] at hfit
      exact .inr ((hregular.defaults s hs t ht).imp_right fun hd => hd.alike hfit)
  typed := by
    intro s hs t ht v hv
    have hfit := fits_of_mem_carried (hfits s hs) hv
    rwa [fits_scalar ht] at hfit

/-- A well-typed message whose lengths can be written can be sent. The induction is on the depth: what a
message carries is less deep than the message, though its type may be the same. -/
theorem sendable_of_conforms (hgood : Regular Good) (hp : Good p) (hconforms : conforms p v = true)
    (hlengths : lengthsFit p v = true) : Sendable p v := by
  induction hdepth : v.depth using Nat.strongRecOn generalizing p v with
  | _ depth ih =>
    obtain ⟨slots, entries, hslots, rfl, hfits⟩ := of_conforms hconforms
    rw [lengthsFit_eq hslots, List.all_eq_true] at hlengths
    have h := writable_of_fits (hgood.slots p slots hp hslots) hfits hlengths
    refine .intro hslots h fun s hs q hq v hv => ?_
    have hfit := fits_of_mem_carried (hfits s hs) hv
    have hlength := h.value hs hv
    simp only [fits, hq] at hfit
    simp only [valueLengthsFit, hq, Bool.and_eq_true] at hlength
    have hless := Slot.depth_of_mem_carried hv
    exact ih v.depth (by omega) (hgood.embedded p slots s q hp hslots hs hq) hfit hlength.2 rfl

theorem appends_encode (hgood : Regular Good) (hp : Good p) (hconforms : conforms p v = true)
    (hlengths : lengthsFit p v = true) : Appends (write p v) (encode p v) :=
  (sendable_of_conforms hgood hp hconforms hlengths).appends

end Codec

end ProtoScribe
