import ProtoScribe.Proofs.Codec.Encoding

/-!
# Reading back what was written

The encoding of a message, wherever it stands and whatever follows it, is read to its end. The reader
need not know the same slots as the writer: it skips what it does not know, and what the writer does not
know stays as it started. `Meeting` says which slots go together, and `Evolution` how they do at every
depth and what is read. `Sendable.reads_as` is the theorem; `Sendable.reads` is the case of a reader and
a writer that know the same slots, where the normal form of the message is read.

What a field does to a message is `receive`: it extends the list of a repeated slot and replaces the
value of any other. The reader meets the slots in the order of their declaration; `progress` is the
message it has after some of them: what they settled on, the initial entries of the others, and behind
these the entries that were added. `receive_progress` is the step from one slot to the next.
-/

namespace ProtoScribe

/-! ## Slots that go together -/

/-- The slot of a reader that takes what a slot of a writer sends: they have the same field, and `R`
relates their messages. -/
structure Slot.Narrows (R : Place → Place → Prop) (s s' : Slot) : Prop where
  field : s'.field = s.field
  scalar : s'.target.scalar? = s.target.scalar?
  message : ∀ q, s.target = .message q → ∃ q', s'.target = .message q' ∧ R q q'

/-- A field narrows to itself. -/
theorem Slot.narrows_self (s : Slot) : s.Narrows Eq s :=
  ⟨rfl, rfl, fun q hq => ⟨q, hq, rfl⟩⟩

namespace Slot

variable {R : Place → Place → Prop} {s s' : Slot}

theorem Narrows.symm (h : s.Narrows R s') : s'.Narrows (fun q' q => R q q') s := by
  refine ⟨h.field.symm, h.scalar.symm, fun q' hq' => ?_⟩
  rcases Codec.target_cases s with ⟨t, ht⟩ | ⟨q, hq⟩
  · rw [← h.scalar, hq'] at ht
    cases ht
  · obtain ⟨q'', hq'', hR⟩ := h.message q hq
    rw [hq'] at hq''
    cases hq''
    exact ⟨q, hq, hR⟩

/-- Both sides start with the same entry. -/
theorem Narrows.initial? (h : s.Narrows R s') : s'.initial? = s.initial? := by
  rw [Slot.initial?, Slot.initial?, h.field]

theorem Narrows.packable (h : s.Narrows R s') : s'.target.packable = s.target.packable := by
  unfold Target.packable
  rw [h.scalar]

/-- Both sides agree on which fields are runs. -/
theorem Narrows.runType? (h : s.Narrows R s') : s'.runType? = s.runType? := by
  unfold Slot.runType?
  rw [h.packable, h.scalar]

/-- A part of regular slots is regular. -/
theorem Regular.filterMap {slots : List Slot} (h : Regular slots) {keep : Slot → Option Slot}
    (hkeep : ∀ s s', keep s = some s' → s.Narrows R s') : Regular (slots.filterMap keep) where
  names := by
    refine List.Pairwise.filterMap keep (fun s t hst s' hs' t' ht' => ?_) h.names
    rwa [(hkeep s s' hs').field, (hkeep t t' ht').field]
  tags := by
    refine List.Pairwise.filterMap keep (fun s t hst s' hs' t' ht' => ?_) h.tags
    rwa [(hkeep s s' hs').field, (hkeep t t' ht').field]
  range := by
    intro s' hs'
    obtain ⟨s, hs, hkept⟩ := List.mem_filterMap.1 hs'
    rw [(hkeep s s' hkept).field]
    exact h.range s hs
  defaults := by
    intro s' hs' t ht
    obtain ⟨s, hs, hkept⟩ := List.mem_filterMap.1 hs'
    have hn := hkeep s s' hkept
    rw [hn.scalar] at ht
    rw [hn.field]
    exact h.defaults s hs t ht

/-- Of regular slots, two with the same tag are one. -/
theorem Regular.eq_of_tag {slots : List Slot} (h : Regular slots) (hs : s ∈ slots) (hs' : s' ∈ slots)
    (htag : s.field.tag = s'.field.tag) : s = s' := by
  have : Std.Symm fun s t : Slot => s.field.tag ≠ t.field.tag := ⟨fun _ _ hne => hne.symm⟩
  by_contra hne
  exact List.Pairwise.forall h.tags hs hs' hne htag

end Slot

namespace Codec

open Run

variable {R : Place → Place → Prop} {p p' : Place} {v : Value} {s s' : Slot} {slots slots' : List Slot}
  {t : Scalar} {entries : List (Value × Value)} {w : Value}

/-! ## Tags -/

/-- A tag belongs to one slot. -/
theorem find?_tag (h : Slot.Regular slots) (hs : s ∈ slots) :
    slots.find? (fun u => u.field.tag = s.field.tag) = some s := by
  cases hfind : slots.find? fun u => u.field.tag = s.field.tag with
  | none =>
    have hnone := List.find?_eq_none.1 hfind s hs
    simp at hnone
  | some u =>
    have htag : u.field.tag = s.field.tag := by simpa using List.find?_some hfind
    rw [h.eq_of_tag (List.mem_of_find?_eq_some hfind) hs htag]

/-! ## Payloads -/

def fieldWireType (s : Slot) : Nat :=
  match s.target.scalar? with
  | some t => t.coding.wireType
  | none => 2

def payloadBytes (s : Slot) (v : Value) : List UInt8 :=
  match s.target with
  | .message q => Wire.varint (size q v) ++ encode q v
  | .enumeration _ => valueBytes Scalar.enum.coding v
  | .scalar t => valueBytes t.coding v

theorem fieldWireType_lt (s : Slot) : fieldWireType s < 8 := by
  unfold fieldWireType
  split
  · exact wireType_lt _
  · decide

/-- A field is its key, followed by a payload. -/
theorem fieldBytes_eq (s : Slot) (v : Value) :
    fieldBytes encode s v = Wire.varint (keyNumber s.field.tag (fieldWireType s)) ++ payloadBytes s v := by
  unfold fieldBytes fieldWireType payloadBytes
  cases s.target with
  | scalar t => rfl
  | enumeration q => rfl
  | message q => exact List.append_assoc _ _ _

theorem payloadBytes_scalar (h : s.target.scalar? = some t) (v : Value) :
    payloadBytes s v = valueBytes t.coding v := by
  rcases scalar_cases h with htarget | ⟨rfl, q, htarget⟩ <;> simp only [payloadBytes, htarget]

theorem readValue_scalar (h : s.target.scalar? = some t) (embedded : Place → Value → Run Value) :
    readValue embedded s.target = Cursor.readAs t.coding t.signed := by
  rcases scalar_cases h with htarget | ⟨rfl, q, htarget⟩ <;> simp only [readValue, htarget]

theorem normalValue_scalar (h : s.target.scalar? = some t) (embedded : Place → Value → Value) (v : Value) :
    normalValue embedded s v = normalScalar t v := by
  rcases scalar_cases h with htarget | ⟨rfl, q, htarget⟩ <;> simp only [normalValue, htarget]
  rfl

/-- A value that a slot can send. -/
structure Sends (s : Slot) (v : Value) : Prop where
  scalar : ∀ t, s.target.scalar? = some t → isOf t v = true ∧ isLength (contentOf v).length = true
  message : ∀ q, s.target = .message q → Sendable q v ∧ size q v < 2 ^ 64

/-- Every value that a writable message carries can be sent. -/
theorem Writable.sends (h : Writable slots entries)
    (hinside : ∀ s ∈ slots, ∀ q, s.target = .message q → ∀ v ∈ s.carried entries, Sendable q v)
    (hs : s ∈ slots) (hv : v ∈ s.carried entries) : Sends s v where
  scalar := fun _ ht => h.scalar hs hv ht
  message := fun q hq => ⟨hinside s hs q hq v hv, h.size hs hv hq⟩

/-- The bytes of a value are a payload of the wire type of its coding, so they can also be skipped. -/
theorem payload_valueBytes (coding : Wire.Coding) (hlength : isLength (contentOf v).length = true) :
    Cursor.Payload coding.wireType (valueBytes coding v) := by
  cases coding with
  | varint | svarint | boolean => exact .varint (Wire.isVarint_varint _)
  | fixed32 | sfixed32 => exact .four (Wire.littleEndian_length _ _)
  | fixed64 | sfixed64 => exact .eight (Wire.littleEndian_length _ _)
  | float => cases v <;> exact .four (Wire.littleEndian_length _ _)
  | double => cases v <;> exact .eight (Wire.littleEndian_length _ _)
  | bytes | string => exact .framed (of_decide_eq_true hlength)

/-- Every field is complete, so it can be skipped. -/
theorem Sends.payload (h : Sends s v) : Cursor.Payload (fieldWireType s) (payloadBytes s v) := by
  rcases target_cases s with ⟨t, ht⟩ | ⟨q, hq⟩
  · rw [payloadBytes_scalar ht, fieldWireType, ht]
    exact payload_valueBytes t.coding (h.scalar t ht).2
  · obtain ⟨hsendable, hsize⟩ := h.message q hq
    simp only [payloadBytes, fieldWireType, hq, Target.scalar?]
    rw [← hsendable.length] at hsize ⊢
    exact .framed hsize

def ReadsAs (p : Place) (bytes : List UInt8) (v : Value) : Prop :=
  ∀ (c : Cursor) (stop : Value) (tail : List UInt8), c.rest = bytes ++ tail →
    Cursor.stopAt stop c = .ok (c.pos + bytes.length) →
    ∃ w, read p stop c = .ok v { c with pos := c.pos + bytes.length, wireType := w }

/-- From the start of a buffer, all of it is read. -/
theorem ReadsAs.whole {bytes : List UInt8} (h : ReadsAs p bytes v) :
    ∃ c, read p .none (.ofBytes bytes) = .ok v c ∧ c.pos = bytes.length := by
  have hrest : (Cursor.ofBytes bytes).rest = bytes ++ [] := by simp [Cursor.ofBytes, Cursor.rest]
  have hstop : Cursor.stopAt .none (.ofBytes bytes) = .ok ((Cursor.ofBytes bytes).pos + bytes.length) := by
    simp [Cursor.stopAt, Cursor.ofBytes, Value.truthy]
  obtain ⟨w, hread⟩ := h (.ofBytes bytes) .none [] hrest hstop
  refine ⟨_, hread, ?_⟩
  simp [Cursor.ofBytes]

/-- An embedded message is read from within its bytes, whatever follows them. -/
theorem takes_readMessage {bytes : List UInt8} (hsize : bytes.length < 2 ^ 64) (hread : ReadsAs p bytes v) :
    Takes w (readValue read (.message p)) (Wire.varint bytes.length ++ bytes) v := by
  intro c tail hw hrest
  have hpos := Wire.varint_length_pos bytes.length
  rw [List.append_assoc] at hrest
  obtain ⟨w₁, hvarint⟩ := Cursor.takes_readVarint hsize c _ hw hrest
  obtain ⟨w₂, hread⟩ := hread { c with pos := c.pos + (Wire.varint bytes.length).length, wireType := w₁ }
    (.int (bytes.length + (c.pos + (Wire.varint bytes.length).length) : Nat)) tail
    (Cursor.rest_behind hrest w₁) (by rw [Cursor.stopAt_int (by omega), Nat.add_comm])
  refine ⟨w₂, ?_⟩
  rw [readValue, bind_of_ok hvarint, bind_apply, get_apply]
  simp only
  rw [hread, List.length_append, Nat.add_assoc]

/-- What is read of a value, if `out` says what is read of messages. -/
def received (out : Place → Place → Value → Value) (s s' : Slot) (v : Value) : Value :=
  match s.target, s'.target with
  | .message q, .message q' => out q q' v
  | _, _ => normalValue normal s v

theorem received_scalar (out : Place → Place → Value → Value) (h : s.target.scalar? = some t) (s' : Slot)
    (v : Value) : received out s s' v = normalScalar t v := by
  rw [← normalValue_scalar h normal]
  unfold received
  split
  · next hmessage _ =>
    rw [hmessage] at h
    cases h
  · rfl

theorem received_normal (s : Slot) (v : Value) :
    received (fun _ => normal) s s v = normalValue normal s v := by
  unfold received
  split
  · next hq hq' =>
    rw [hq] at hq'
    cases hq'
    simp only [normalValue, hq]
  · rfl

/-- The reader takes a payload, if it takes messages. -/
theorem Sends.takes {out : Place → Place → Value → Value} (h : Sends s v) (hn : s.Narrows R s')
    (hemb : ∀ q q', s.target = .message q → R q q' → ReadsAs q' (encode q v) (out q q' v)) :
    Takes w (readValue read s'.target) (payloadBytes s v) (received out s s' v) := by
  rcases target_cases s with ⟨t, ht⟩ | ⟨q, hq⟩
  · obtain ⟨hof, hlength⟩ := h.scalar t ht
    rw [payloadBytes_scalar ht, readValue_scalar (hn.scalar.trans ht), received_scalar out ht]
    exact takes_readAs hof hlength
  · obtain ⟨q', hq', hR⟩ := hn.message q hq
    obtain ⟨hsendable, hsize⟩ := h.message q hq
    simp only [payloadBytes, received, hq, hq']
    rw [← hsendable.length] at hsize ⊢
    exact takes_readMessage hsize (hemb q q' hq hR)

/-- A value that could be in a run does not look like a run. -/
theorem wireType_of_run (h : s.runType?.isSome = true) : fieldWireType s ≠ 2 := by
  obtain ⟨t, ht⟩ := Option.isSome_iff_exists.1 h
  obtain ⟨hscalar, hwire⟩ := runType?_eq_some ht
  simpa only [fieldWireType, hscalar] using hwire

/-! ## Messages that receive values -/

/-- A message after values for a slot have arrived: they extend the list of a repeated slot, and the
last one is the value of any other. -/
def receive (s : Slot) (message : List (Value × Value)) (values : List Value) : List (Value × Value) :=
  if s.field.repeated then
    match Value.find? message s.field.name with
    | some (.list old) => Value.put message s.field.name (.list (old ++ values))
    | _ => message
  else match values.getLast? with
    | some v => Value.put message s.field.name v
    | none => message

/-- A message that can take values for a slot: it has a list for them if the slot is repeated. -/
def Ready (s : Slot) (message : List (Value × Value)) : Prop :=
  s.field.repeated = true → ∃ items, Value.find? message s.field.name = some (.list items)

section

variable {message : List (Value × Value)} {values : List Value} {old : List Value}

/-- Values are appended to the list that is there. -/
theorem receive_list (hrep : s.field.repeated = true)
    (hold : Value.find? message s.field.name = some (.list old)) :
    receive s message values = Value.put message s.field.name (.list (old ++ values)) := by
  simp only [receive, hrep, if_true, hold]

/-- A value replaces the one that is there. -/
theorem receive_single (hrep : s.field.repeated = false) :
    receive s message [v] = Value.put message s.field.name v := by
  simp [receive, hrep]

theorem receive_nil (h : Ready s message) : receive s message [] = message := by
  cases hrep : s.field.repeated with
  | true =>
    obtain ⟨items, hitems⟩ := h hrep
    rw [receive_list hrep hitems, List.append_nil, Value.put_of_find? hitems]
  | false => simp [receive, hrep]

/-- A field that has received values can receive more. -/
theorem Ready.receive (h : Ready s message) (values : List Value) : Ready s (receive s message values) := by
  intro hrep
  obtain ⟨items, hitems⟩ := h hrep
  rw [receive_list hrep hitems]
  exact ⟨_, Value.find?_put_self _ _ _⟩

/-- Values may arrive in parts. -/
theorem receive_append (h : Ready s message) (values more : List Value) :
    receive s (receive s message values) more = receive s message (values ++ more) := by
  cases hrep : s.field.repeated with
  | true =>
    obtain ⟨items, hitems⟩ := h hrep
    rw [receive_list hrep hitems, receive_list hrep hitems,
      receive_list hrep (Value.find?_put_self _ _ _), Value.put_put, List.append_assoc]
  | false =>
    cases hmore : more.getLast? with
    | none =>
      rw [List.getLast?_eq_none_iff] at hmore
      subst hmore
      rw [List.append_nil]
      simp only [receive, hrep, Bool.false_eq_true, if_false, List.getLast?_nil]
    | some v =>
      have hlast : (values ++ more).getLast? = some v := by simp [List.getLast?_append, hmore]
      simp only [receive, hrep, Bool.false_eq_true, if_false, hmore, hlast]
      split
      · exact Value.put_put _ _ _ _
      · rfl

/-- A packed field brings its values. -/
theorem takes_store_run {payload : List UInt8} (h : Ready s message) (hrep : s.field.repeated = true)
    (ht : s.runType? = some t) (hvalues : Takes w (Cursor.packedValues t.coding t.signed) payload values) :
    Takes w (store read s message) payload (receive s message values) := by
  obtain ⟨items, hitems⟩ := h hrep
  have hstore : store read s message = (Cursor.packedValues t.coding t.signed >>= fun values =>
      pure (receive s message values)) := by
    simp only [store, hrep, if_true, entry, hitems, lift_ok_bind, ht, Cursor.readPacked_list,
      bind_map_left, receive_list hrep hitems]
  rw [hstore]
  exact hvalues.map _

/-- A single field brings one value, whether its slot is packable or not. -/
theorem takes_store {payload : List UInt8} (h : Ready s message)
    (hvalue : Takes w (readValue read s.target) payload v) (hw : s.runType?.isSome = true → w.equals (.int 2) = false) :
    Takes w (store read s message) payload (receive s message [v]) := by
  cases hrep : s.field.repeated with
  | false =>
    have hstore : store read s message =
        (readValue read s.target >>= fun v => pure (Value.put message s.field.name v)) := by
      simp only [store, hrep, Bool.false_eq_true, if_false]
    rw [hstore, receive_single hrep]
    exact hvalue.map _
  | true =>
    cases ht : s.runType? with
    | some t =>
      rw [readValue_scalar (runType?_eq_some ht).1] at hvalue
      exact takes_store_run h hrep ht (Cursor.takes_packedValues_single (hw (by rw [ht]; rfl)) hvalue)
    | none =>
      obtain ⟨items, hitems⟩ := h hrep
      have hstore : store read s message = (readValue read s.target >>= fun v =>
          pure (receive s message [v])) := by
        simp only [store, hrep, if_true, entry, hitems, lift_ok_bind, ht, receive_list hrep hitems]
      rw [hstore]
      exact hvalue.map _

end

/-! ## Fields -/

section

variable {message message' : List (Value × Value)} {payload : List UInt8} {wireType : Nat}

/-- A field that its slot takes from behind the key. -/
theorem streams_stored (h : Slot.Regular slots) (hs : s ∈ slots) (hw : wireType < 8) (hne : payload ≠ [])
    (hstore : Takes (.int wireType) (store read s message) payload message') :
    Streams (Cursor.readNext (readField read slots))
      (Wire.varint (keyNumber s.field.tag wireType) ++ payload) message message' := by
  have htag := h.range s hs
  refine .single (List.append_ne_nil_of_right_ne_nil _ hne) fun w => ?_
  refine Cursor.takes_readNext (Cursor.takes_readVarint (keyNumber_lt htag hw)) hne ?_
  rw [keyNumber_mod hw, readField, keyNumber_div htag.1 hw, find?_tag h hs]
  exact hstore

/-- A field that no slot takes is skipped. -/
theorem streams_skipped {front : List UInt8} {key : Nat} (hfront : Wire.isVarint 10 front = true)
    (hkey : Wire.base128 front % 2 ^ 64 = key) (hunknown : ∀ s ∈ slots, s.field.tag ≠ (key / 8 : Nat))
    (hpayload : Cursor.Payload (key % 8) payload) (message : List (Value × Value)) :
    Streams (Cursor.readNext (readField read slots)) (front ++ payload) message message := by
  have hfind : slots.find? (fun u => u.field.tag = ((key / 8 : Nat) : Int)) = none := by
    rw [List.find?_eq_none]
    intro s hs
    simpa using hunknown s hs
  have hne := List.append_ne_nil_of_left_ne_nil (Wire.ne_nil_of_isVarint hfront) payload
  refine .single hne fun w => Cursor.takes_readNext_skip ?_ (fun w => Cursor.takes_skip hpayload) ?_
  · rw [← hkey]
    exact Cursor.takes_isVarint hfront
  · rw [readField, hfind]

/-- The same with a key as it is written. -/
theorem streams_unknown (htag : 0 ≤ s.field.tag ∧ s.field.tag < 2 ^ 61) (hw : wireType < 8)
    (hunknown : ∀ u ∈ slots, u.field.tag ≠ s.field.tag) (hpayload : Cursor.Payload wireType payload)
    (message : List (Value × Value)) :
    Streams (Cursor.readNext (readField read slots))
      (Wire.varint (keyNumber s.field.tag wireType) ++ payload) message message := by
  have hkey : Wire.base128 (Wire.varint (keyNumber s.field.tag wireType)) % 2 ^ 64 =
      keyNumber s.field.tag wireType := by
    have hlt := keyNumber_lt htag hw
    rw [Wire.base128_varint]
    omega
  refine streams_skipped (Wire.isVarint_varint _) hkey ?_ ?_ message
  · intro u hu
    rw [keyNumber_div htag.1 hw]
    exact hunknown u hu
  · rwa [keyNumber_mod hw]

/-- One value of a slot as a field. -/
theorem streams_field {out : Place → Place → Value → Value} (hregular : Slot.Regular slots')
    (hs' : s' ∈ slots') (hn : s.Narrows R s') (h : Sends s v)
    (hemb : ∀ q q', s.target = .message q → R q q' → ReadsAs q' (encode q v) (out q q' v))
    (hready : Ready s' message) :
    Streams (Cursor.readNext (readField read slots')) (fieldBytes encode s v) message
      (receive s' message [received out s s' v]) := by
  rw [fieldBytes_eq, ← hn.field]
  refine streams_stored hregular hs' (fieldWireType_lt s) h.payload.ne_nil ?_
  refine takes_store hready (h.takes hn hemb) fun hrun => ?_
  rw [hn.runType?] at hrun
  have hother := wireType_of_run hrun
  exact beq_eq_false_iff_ne.2 (by omega)

/-- Values of a slot, one field each. The induction is on the values, which arrive one by one. -/
theorem streams_fields {out : Place → Place → Value → Value} (hregular : Slot.Regular slots')
    (hs' : s' ∈ slots') (hn : s.Narrows R s') {values : List Value} (h : ∀ v ∈ values, Sends s v)
    (hemb : ∀ q q', s.target = .message q → R q q' →
      ∀ v ∈ values, ReadsAs q' (encode q v) (out q q' v))
    (hready : Ready s' message) :
    Streams (Cursor.readNext (readField read slots')) (values.flatMap (fieldBytes encode s)) message
      (receive s' message (values.map (received out s s'))) := by
  induction values generalizing message with
  | nil =>
    rw [List.map_nil, receive_nil hready]
    exact .nil _
  | cons v values ih =>
    have hfirst := streams_field hregular hs' hn (h v (by simp))
      (fun q q' hq hR => hemb q q' hq hR v (by simp)) hready
    have hrest := ih (fun u hu => h u (by simp [hu]))
      (fun q q' hq hR u hu => hemb q q' hq hR u (by simp [hu]))
      (hready.receive [received out s s' v])
    rw [receive_append hready] at hrest
    exact hfirst.append hrest

/-- The payload of a packed run. -/
theorem run_payload {values : List Value} (hvalues : ∀ v ∈ values, isLength (contentOf v).length = true)
    (hsize : runSize t values < 2 ^ 64) :
    (values.flatMap (valueBytes t.coding)).length = runSize t values ∧
      Cursor.Payload 2 (Wire.varint (runSize t values) ++ values.flatMap (valueBytes t.coding)) := by
  have hcontent : (values.flatMap (valueBytes t.coding)).length = runSize t values :=
    length_flatMap fun v hv => valueBytes_length t.coding (hvalues v hv)
  refine ⟨hcontent, ?_⟩
  rw [← hcontent] at hsize ⊢
  exact .framed hsize

/-- Values of a repeated slot in a packed run. -/
theorem streams_run (hregular : Slot.Regular slots) (hs : s ∈ slots) (hrep : s.field.repeated = true)
    (ht : s.runType? = some t) {values : List Value}
    (hvalues : ∀ v ∈ values, isOf t v = true ∧ isLength (contentOf v).length = true)
    (hsize : runSize t values < 2 ^ 64) (hready : Ready s message) :
    Streams (Cursor.readNext (readField read slots)) (runBytes s.field.tag t values) message
      (receive s message (values.map (normalScalar t))) := by
  obtain ⟨hcontent, hpayload⟩ := run_payload (fun v hv => (hvalues v hv).2) hsize
  rw [runBytes, List.append_assoc]
  refine streams_stored hregular hs (by decide) hpayload.ne_nil (takes_store_run hready hrep ht ?_)
  rw [← hcontent]
  refine Cursor.takes_packedValues_run (fun v hv => ⟨?_, fun w => ?_⟩) (by rwa [hcontent])
  · exact valueBytes_ne_nil _ (hvalues v hv).2
  · exact takes_readAs (hvalues v hv).1 (hvalues v hv).2

end

/-! ## Slots -/

section

variable {message : List (Value × Value)} (h : Writable slots entries)
  (hinside : ∀ s ∈ slots, ∀ q, s.target = .message q → ∀ v ∈ s.carried entries, Sendable q v)
  (hs : s ∈ slots)

include h hinside hs

/-- All that a message carries for a slot that the reader knows. -/
theorem streams_slot {out : Place → Place → Value → Value} (hregular : Slot.Regular slots')
    (hs' : s' ∈ slots') (hn : s.Narrows R s')
    (hemb : ∀ q q', s.target = .message q → R q q' →
      ∀ v ∈ s.carried entries, ReadsAs q' (encode q v) (out q q' v))
    (hready : Ready s' message) :
    Streams (Cursor.readNext (readField read slots')) (slotBytes encode entries s) message
      (receive s' message ((s.carried entries).map (received out s s'))) := by
  cases ht : s.packedAs? with
  | none =>
    rw [slotBytes_of_fields encode ht]
    exact streams_fields hregular hs' hn (fun v hv => h.sends hinside hs hv) hemb hready
  | some t =>
    by_cases hnil : s.carried entries = []
    · rw [slotBytes_of_nil encode hnil, hnil, List.map_nil, receive_nil hready]
      exact .nil _
    · obtain ⟨hrep, hscalar, hrun⟩ := packedAs?_eq_some ht
      have hvalues : (s.carried entries).map (received out s s') = (s.carried entries).map (normalScalar t) :=
        List.map_congr_left fun v _ => received_scalar out hscalar s' v
      rw [slotBytes_of_run encode ht hnil, hvalues, ← hn.field]
      refine streams_run hregular hs' ?_ ?_ (fun v hv => h.scalar hs hv hscalar) (h.run hs ht) hready
      · rw [hn.field]
        exact hrep
      · rw [hn.runType?]
        exact hrun

/-- All that a message carries for a slot that the reader does not know. -/
theorem streams_unknown_slot (hunknown : ∀ u ∈ slots', u.field.tag ≠ s.field.tag) :
    Streams (Cursor.readNext (readField read slots')) (slotBytes encode entries s) message message := by
  have htag := h.regular.range s hs
  cases ht : s.packedAs? with
  | none =>
    rw [slotBytes_of_fields encode ht]
    have hfield : ∀ v ∈ s.carried entries,
        Streams (Cursor.readNext (readField read slots')) (fieldBytes encode s v) message message := by
      intro v hv
      rw [fieldBytes_eq]
      exact streams_unknown htag (fieldWireType_lt s) hunknown (h.sends hinside hs hv).payload message
    revert hfield
    generalize s.carried entries = values
    intro hfield
    induction values with
    | nil => exact .nil _
    | cons v values ih => exact (hfield v (by simp)).append (ih fun u hu => hfield u (by simp [hu]))
  | some t =>
    by_cases hnil : s.carried entries = []
    · rw [slotBytes_of_nil encode hnil]
      exact .nil _
    · have hscalar := (packedAs?_eq_some ht).2.1
      have hpayload := (run_payload (fun v hv => (h.scalar hs hv hscalar).2) (h.run hs ht)).2
      rw [slotBytes_of_run encode ht hnil, runBytes, List.append_assoc]
      exact streams_unknown htag (by decide) hunknown hpayload message

end

/-! ## Messages -/

/-- The entry of a slot that starts filled, when some values have arrived for it. -/
def filledWith (arrival : Slot × List Value) : Option (Value × Value) :=
  arrival.1.initial?.map fun (key, start) => (key, settled arrival.1 start arrival.2)

/-- The entry of a slot that does not start filled, if a value has arrived for it. -/
def addedWith (arrival : Slot × List Value) : Option (Value × Value) :=
  match arrival.1.initial? with
  | some _ => none
  | none => arrival.2.head?.map (arrival.1.field.name, ·)

/-- The message with the values that have arrived for its slots. -/
def assembled (arrivals : List (Slot × List Value)) : List (Value × Value) :=
  arrivals.filterMap filledWith ++ arrivals.filterMap addedWith

/-- The message when the values for some slots have arrived, and those for others have not. -/
def progress (done rest : List (Slot × List Value)) : List (Value × Value) :=
  done.filterMap filledWith ++ (rest.filterMap (·.1.initial?) ++ done.filterMap addedWith)

theorem filledWith_key {arrival : Slot × List Value} {entry : Value × Value}
    (h : filledWith arrival = some entry) : entry.1 = arrival.1.field.name := by
  obtain ⟨⟨key, start⟩, hstart, rfl⟩ := Option.map_eq_some_iff.1 h
  have hkey := arrival.1.initial?_key hstart
  exact hkey

theorem addedWith_key {arrival : Slot × List Value} {entry : Value × Value}
    (h : addedWith arrival = some entry) : entry.1 = arrival.1.field.name := by
  unfold addedWith at h
  split at h
  · cases h
  · obtain ⟨v, -, rfl⟩ := Option.map_eq_some_iff.1 h
    rfl

section

variable {done rest : List (Slot × List Value)} {values : List Value}

/-- The field at hand is told by its name from those that are done and those that are to come. -/
theorem names_apart (h : Slot.Apart ((done ++ (s, values) :: rest).map Prod.fst))
    {u : Slot × List Value} (hu : u ∈ done ∨ u ∈ rest) : u.1.field.name.sameKey s.field.name = false := by
  rw [List.map_append, List.map_cons] at h
  obtain ⟨-, hlater, hbetween⟩ := List.pairwise_append.1 h
  rcases hu with hdone | hrest
  · exact hbetween u.1 (List.mem_map_of_mem hdone) s (by simp)
  · rw [Value.sameKey_comm]
    exact (List.pairwise_cons.1 hlater).1 u.1 (List.mem_map_of_mem hrest)

/-- No entry of the other slots is in the way of a slot. -/
theorem progress_absent (h : Slot.Apart ((done ++ (s, values) :: rest).map Prod.fst)) :
    (∀ entry ∈ done.filterMap filledWith, entry.1.sameKey s.field.name = false) ∧
      ∀ entry ∈ progress done rest, entry.1.sameKey s.field.name = false := by
  have hfilled : ∀ entry ∈ done.filterMap filledWith, entry.1.sameKey s.field.name = false := by
    intro entry hentry
    obtain ⟨u, hu, hkey⟩ := List.mem_filterMap.1 hentry
    rw [filledWith_key hkey]
    exact names_apart h (.inl hu)
  refine ⟨hfilled, fun entry hentry => ?_⟩
  unfold progress at hentry
  rcases List.mem_append.1 hentry with hentry | hentry
  · exact hfilled entry hentry
  · rcases List.mem_append.1 hentry with hentry | hentry
    · obtain ⟨u, hu, hkey⟩ := List.mem_filterMap.1 hentry
      rw [u.1.initial?_key hkey]
      exact names_apart h (.inr hu)
    · obtain ⟨u, hu, hkey⟩ := List.mem_filterMap.1 hentry
      rw [addedWith_key hkey]
      exact names_apart h (.inl hu)

/-- A field with a start is filled in its place. -/
theorem progress_filled (done rest : List (Slot × List Value)) {start final : Value × Value}
    (hinitial : s.initial? = some start) (hfilled : filledWith (s, values) = some final) :
    progress done ((s, values) :: rest) = done.filterMap filledWith ++
        start :: (rest.filterMap (·.1.initial?) ++ done.filterMap addedWith) ∧
      progress (done ++ [(s, values)]) rest = done.filterMap filledWith ++
        final :: (rest.filterMap (·.1.initial?) ++ done.filterMap addedWith) := by
  have hadded : addedWith (s, values) = none := by
    unfold addedWith
    rw [hinitial]
  constructor
  · simp [progress, hinitial]
  · simp [progress, hfilled, hadded]

/-- A field without a start is added behind all others, if it is set. -/
theorem progress_added (done rest : List (Slot × List Value)) (values : List Value)
    (hinitial : s.initial? = none) :
    progress done ((s, values) :: rest) = progress done rest ∧
      progress (done ++ [(s, values)]) rest = progress done rest ++ (addedWith (s, values)).toList := by
  have hfilled : filledWith (s, values) = none := by
    unfold filledWith
    rw [hinitial]
    rfl
  constructor
  · simp [progress, hinitial]
  · cases hadded : addedWith (s, values) <;> simp [progress, hfilled, hadded]

theorem initial?_of_single (hrep : s.field.repeated = false) :
    s.initial? = if s.field.default = .none then none else some (s.field.name, s.field.default) := by
  simp [Slot.initial?, hrep]

/-- The values of a slot settle it: a slot that starts filled in its place, any other at the end. -/
theorem receive_progress (h : Slot.Apart ((done ++ (s, values) :: rest).map Prod.fst))
    (hsingle : s.field.repeated = false → values = [] ∨ ∃ v, values = [v]) :
    Ready s (progress done ((s, values) :: rest)) ∧
      receive s (progress done ((s, values) :: rest)) values = progress (done ++ [(s, values)]) rest := by
  obtain ⟨hbefore, habsent⟩ := progress_absent h
  cases hrep : s.field.repeated with
  | true =>
    have hinitial : s.initial? = some (s.field.name, .list []) := by rw [Slot.initial?, if_pos hrep]
    have hfilled : filledWith (s, values) = some (s.field.name, .list values) := by
      simp [filledWith, hinitial, settled, hrep]
    obtain ⟨hstart, hfinal⟩ := progress_filled done rest hinitial hfilled
    have hfind : Value.find? (progress done ((s, values) :: rest)) s.field.name = some (.list []) := by
      rw [hstart]
      exact Value.find?_middle hbefore
    refine ⟨fun _ => ⟨[], hfind⟩, ?_⟩
    rw [receive_list hrep hfind, hstart, hfinal, Value.put_middle hbefore, List.nil_append]
  | false =>
    refine ⟨?_, ?_⟩
    · intro htrue
      rw [hrep] at htrue
      cases htrue
    have hinitial := initial?_of_single hrep
    by_cases hdefault : s.field.default = .none
    · rw [if_pos hdefault] at hinitial
      obtain ⟨hstart, hfinal⟩ := progress_added done rest values hinitial
      rw [hstart, hfinal]
      rcases hsingle hrep with rfl | ⟨v, rfl⟩
      · simp [receive, hrep, addedWith, hinitial]
      · have hadded : addedWith (s, [v]) = some (s.field.name, v) := by simp [addedWith, hinitial]
        rw [receive_single hrep, hadded, Option.toList_some, Value.put_of_absent v habsent]
    · rw [if_neg hdefault] at hinitial
      rcases hsingle hrep with rfl | ⟨v, rfl⟩
      · have hfilled : filledWith (s, []) = some (s.field.name, s.field.default) := by
          simp [filledWith, hinitial, settled, hrep]
        obtain ⟨hstart, hfinal⟩ := progress_filled done rest hinitial hfilled
        rw [hstart, hfinal]
        simp [receive, hrep]
      · have hfilled : filledWith (s, [v]) = some (s.field.name, v) := by
          simp [filledWith, hinitial, settled, hrep]
        obtain ⟨hstart, hfinal⟩ := progress_filled done rest hinitial hfilled
        rw [hstart, hfinal, receive_single hrep, Value.put_middle hbefore]

end

/-! ## Writers and readers -/

/-- A slot of a writer and the slot of a reader that takes what it sends, or a slot that only one of
them has. -/
inductive Meeting
  | both (s s' : Slot)
  | sent (s : Slot)
  | missing (s' : Slot)

namespace Meeting

def writer? : Meeting → Option Slot
  | both s _ | sent s => some s
  | missing _ => none

def reader? : Meeting → Option Slot
  | both _ s' | missing s' => some s'
  | sent _ => none

/-- The slot of the reader with the values that arrive for it when a message is sent. -/
def arrival? (out : Place → Place → Value → Value) (entries : List (Value × Value)) :
    Meeting → Option (Slot × List Value)
  | both s s' => some (s', (s.carried entries).map (received out s s'))
  | sent _ => none
  | missing s' => some (s', [])

/-- There is an arrival, maybe an empty one, for every field of the reader. -/
theorem map_arrival? (out : Place → Place → Value → Value) (entries : List (Value × Value))
    (meetings : List Meeting) :
    (meetings.filterMap (arrival? out entries)).map Prod.fst = meetings.filterMap reader? := by
  rw [List.map_filterMap]
  congr 1
  funext meeting
  cases meeting <;> rfl

end Meeting

/-- Slots that meet, where `R` relates the messages of a writer and a reader: those of the reader are
regular, and what the reader has no slot for is unknown to it. -/
structure Meetings (R : Place → Place → Prop) (meetings : List Meeting) : Prop where
  regular : Slot.Regular (meetings.filterMap Meeting.reader?)
  both : ∀ s s', .both s s' ∈ meetings → s.Narrows R s'
  sent : ∀ s, .sent s ∈ meetings → ∀ u ∈ meetings.filterMap Meeting.reader?, u.field.tag ≠ s.field.tag

/-- Writers and readers by the places of their messages, and what is read of the messages sent. -/
structure Evolution (R : Place → Place → Prop) (out : Place → Place → Value → Value) : Prop where
  meet : ∀ {p p' slots}, R p p' → p.slots = .ok slots → Slot.Regular slots →
    ∃ meetings, slots = meetings.filterMap Meeting.writer? ∧
      p'.slots = .ok (meetings.filterMap Meeting.reader?) ∧ Meetings R meetings ∧
      ∀ entries, Writable slots entries →
        out p p' (.dict entries) = .dict (assembled (meetings.filterMap (Meeting.arrival? out entries)))

/-- The slots in turn. The induction is on those that are left; `done` are the slots of the reader that
were met. -/
theorem streams_meetings {out : Place → Place → Value → Value} {meetings : List Meeting}
    (hmeet : Meetings R meetings) (h : Writable slots entries)
    (hinside : ∀ s ∈ slots, ∀ q, s.target = .message q → ∀ v ∈ s.carried entries, Sendable q v)
    (hemb : ∀ s ∈ slots, ∀ q q', s.target = .message q → R q q' →
      ∀ v ∈ s.carried entries, ReadsAs q' (encode q v) (out q q' v))
    (done : List (Slot × List Value)) {rest : List Meeting} (hrest : ∀ meeting ∈ rest, meeting ∈ meetings)
    (hwriter : ∀ meeting ∈ rest, ∀ s, meeting.writer? = some s → s ∈ slots)
    (hdone : (done ++ rest.filterMap (Meeting.arrival? out entries)).map Prod.fst =
      meetings.filterMap Meeting.reader?) :
    Streams (Cursor.readNext (readField read (meetings.filterMap Meeting.reader?)))
      ((rest.filterMap Meeting.writer?).flatMap (slotBytes encode entries))
      (progress done (rest.filterMap (Meeting.arrival? out entries)))
      (progress (done ++ rest.filterMap (Meeting.arrival? out entries)) []) := by
  induction rest generalizing done with
  | nil =>
    simp only [List.filterMap_nil, List.append_nil]
    exact .nil _
  | cons meeting rest ih =>
    have hmem := hrest meeting (by simp)
    have hlater := fun done => ih done (fun other hother => hrest other (by simp [hother]))
      (fun other hother => hwriter other (by simp [hother]))
    have hapart := hmeet.regular.names
    rw [← hdone] at hapart
    cases meeting with
    | both s s' =>
      have hs := hwriter (.both s s') (by simp) s rfl
      have hs' : s' ∈ meetings.filterMap Meeting.reader? := List.mem_filterMap.2 ⟨_, hmem, rfl⟩
      have hn := hmeet.both s s' hmem
      rw [List.filterMap_cons_some (rfl : Meeting.arrival? out entries (.both s s') = some _)] at hdone hapart ⊢
      rw [List.filterMap_cons_some (rfl : Meeting.writer? (.both s s') = some s), List.flatMap_cons]
      have hsingle : s'.field.repeated = false → (s.carried entries).map (received out s s') = [] ∨
          ∃ v, (s.carried entries).map (received out s s') = [v] := by
        intro hrep
        rw [hn.field] at hrep
        rw [carried_of_single hrep]
        split
        · exact .inl rfl
        · exact .inr ⟨_, rfl⟩
      obtain ⟨hready, hreceive⟩ := receive_progress hapart hsingle
      have hstep := streams_slot h hinside hs hmeet.regular hs' hn (hemb s hs) hready
      rw [hreceive] at hstep
      have hrest := hlater (done ++ [(s', (s.carried entries).map (received out s s'))])
        (by rw [← hdone, List.append_assoc]; rfl)
      rw [List.append_assoc] at hrest
      exact hstep.append hrest
    | sent s =>
      have hs := hwriter (.sent s) (by simp) s rfl
      rw [List.filterMap_cons_none (rfl : Meeting.arrival? out entries (.sent s) = none)] at hdone ⊢
      rw [List.filterMap_cons_some (rfl : Meeting.writer? (.sent s) = some s), List.flatMap_cons]
      exact (streams_unknown_slot h hinside hs (hmeet.sent s hmem)).append (hlater done hdone)
    | missing s' =>
      rw [List.filterMap_cons_some (rfl : Meeting.arrival? out entries (.missing s') = some _)] at hdone hapart ⊢
      rw [List.filterMap_cons_none (rfl : Meeting.writer? (.missing s') = none)]
      -- nothing is sent, so the slot stays as it started
      obtain ⟨hready, hreceive⟩ := receive_progress hapart fun _ => .inl rfl
      rw [receive_nil hready] at hreceive
      have hrest := hlater (done ++ [(s', [])]) (by rw [← hdone, List.append_assoc]; rfl)
      rw [List.append_assoc] at hrest
      rw [hreceive]
      exact hrest

/-- What a reader makes of the encoding of a message. -/
theorem Sendable.reads_as {out : Place → Place → Value → Value} (hR : Evolution R out) (h : Sendable p v)
    (hp : R p p') : ReadsAs p' (encode p v) (out p p' v) := by
  induction h generalizing p' with
  | @intro p slots entries hslots h hinside ih =>
    obtain ⟨meetings, hwriter, hslots', hmeet, hout⟩ := hR.meet hp hslots h.regular
    have hdone : (([] : List (Slot × List Value)) ++ meetings.filterMap (Meeting.arrival? out entries)).map
        Prod.fst = meetings.filterMap Meeting.reader? := Meeting.map_arrival? out entries meetings
    intro c stop tail hrest hstop
    have hstreams := streams_meetings hmeet h hinside
      (fun s hs q q' hq hqR v hv => ih s hs q hq v hv hqR) [] (fun _ hmeeting => hmeeting)
      (fun meeting hmeeting s hs => by rw [hwriter]; exact List.mem_filterMap.2 ⟨meeting, hmeeting, hs⟩) hdone
    have hstart : progress [] (meetings.filterMap (Meeting.arrival? out entries)) =
        initial (meetings.filterMap Meeting.reader?) := by
      rw [initial_eq hmeet.regular.names, ← Meeting.map_arrival? out entries, List.filterMap_map]
      simp [progress]
    have hfinal : progress (meetings.filterMap (Meeting.arrival? out entries)) [] =
        assembled (meetings.filterMap (Meeting.arrival? out entries)) := by
      simp [progress, assembled]
    rw [hstart, List.nil_append, hfinal, ← hwriter, ← encode_eq hslots] at hstreams
    obtain ⟨w, hfields⟩ := Cursor.readFields_takes hstreams hrest hstop
    refine ⟨w, ?_⟩
    rw [read_eq, hslots', lift_ok_bind, bind_of_ok hfields, hout entries h]
    rfl

/-- A reader that knows the same slots reads the normal form. -/
theorem evolution_normal : Evolution Eq (fun _ => normal) where
  meet := by
    rintro p _ slots rfl hslots hregular
    have hwriter : (slots.map fun s => Meeting.both s s).filterMap Meeting.writer? = slots := by
      simp [List.filterMap_map, Function.comp_def, Meeting.writer?]
    have hreader : (slots.map fun s => Meeting.both s s).filterMap Meeting.reader? = slots := by
      simp [List.filterMap_map, Function.comp_def, Meeting.reader?]
    refine ⟨slots.map fun s => .both s s, hwriter.symm, by rw [hreader, hslots], ?_, ?_⟩
    · refine ⟨by rwa [hreader], ?_, ?_⟩
      · intro s s' hmem
        obtain ⟨u, -, hu⟩ := List.mem_map.1 hmem
        cases hu
        exact s.narrows_self
      · intro s hmem
        obtain ⟨u, -, hu⟩ := List.mem_map.1 hmem
        cases hu
    · intro entries _
      have harrivals : (slots.map fun s => Meeting.both s s).filterMap
          (Meeting.arrival? (fun _ => normal) entries) =
            slots.map fun s => (s, normalValues normal entries s) := by
        simp [List.filterMap_map, Function.comp_def, Meeting.arrival?, received_normal, normalValues]
      rw [harrivals, normal_eq hslots, assembled, List.filterMap_map, List.filterMap_map]
      rfl

/-- The encoding of a message is read as its normal form. -/
theorem Sendable.reads (h : Sendable p v) : ReadsAs p (encode p v) (normal p v) :=
  h.reads_as evolution_normal rfl

/-- The bytes of a message are read as its normal form. -/
theorem read_encode {Good : Place → Prop} (hgood : Regular Good) (hp : Good p)
    (hconforms : conforms p v = true) (hlengths : lengthsFit p v = true) :
    ReadsAs p (encode p v) (normal p v) :=
  (sendable_of_conforms hgood hp hconforms hlengths).reads

end Codec

end ProtoScribe
