import ProtoScribe.Proofs.Codec.RoundTrip

/-!
# Streams of fields

A message on the wire is a stream of fields in any order: single values, runs of values that may be
empty, and fields that are foreign to the message. `readsAs_entries` says what a stream means. A
repeated slot holds all its values in the order of their arrival, however they were split; any other
slot holds the last value that arrived for it.

`Entry.arrive` is what one field does to a message (`Valid.streams`), and `find?_arrive` is what that
means for each slot. The rest is induction on the stream.
-/

namespace ProtoScribe

/-- What a message holds for a slot after some values have arrived for it. -/
def Slot.outcome (s : Slot) (values : List Value) : Option Value :=
  if s.field.repeated then some (.list values)
  else match values.getLast? with
    | some v => some v
    | none => if s.field.default = .none then none else some s.field.default

namespace Codec

open Run

inductive Entry
  /-- One value of a slot. -/
  | single (s : Slot) (v : Value)
  /-- A run of values of a built-in type for a slot. -/
  | chunk (s : Slot) (t : Scalar) (values : List Value)
  /-- Any other field: the bytes of its key and those behind it. -/
  | foreign (front payload : List UInt8)

namespace Entry

/-- Writes a field. A run is written even if it is empty. -/
def write : Entry → Run Unit
  | single s v => writeValue Codec.write s v
  | chunk s t values => Cursor.writeMessage (.int s.field.tag) (Cursor.writeEach t.coding values)
  | foreign front payload => do
    Cursor.append front
    Cursor.append payload

def bytes : Entry → List UInt8
  | single s v => fieldBytes encode s v
  | chunk s t values => runBytes s.field.tag t values
  | foreign front payload => front ++ payload

/-- Fields that a message with the given slots may be sent. -/
inductive Valid (slots : List Slot) : Entry → Prop
  | single {s : Slot} {v : Value} : s ∈ slots → fits conforms s v = true →
    valueLengthsFit lengthsFit s v = true → Valid slots (.single s v)
  | chunk {s : Slot} {t : Scalar} {values : List Value} : s ∈ slots → s.field.repeated = true →
    s.runType? = some t → (∀ v ∈ values, isOf t v = true) → isLength (runSize t values) = true →
    Valid slots (.chunk s t values)
  | foreign {front payload : List UInt8} {key : Nat} : Wire.isVarint 10 front = true →
    Wire.base128 front % 2 ^ 64 = key → (∀ s ∈ slots, s.field.tag ≠ (key / 8 : Nat)) →
    Cursor.Payload (key % 8) payload → Valid slots (.foreign front payload)

def valuesFor (s : Slot) : Entry → List Value
  | single u v => if u.field.tag = s.field.tag then [normalValue normal u v] else []
  | chunk u t values => if u.field.tag = s.field.tag then values.map (normalScalar t) else []
  | foreign _ _ => []

def arrive (message : List (Value × Value)) : Entry → List (Value × Value)
  | single s v => receive s message [normalValue normal s v]
  | chunk s t values => receive s message (values.map (normalScalar t))
  | foreign _ _ => message

end Entry

variable {Good : Place → Prop} {p : Place} {slots : List Slot} {s u : Slot} {v : Value} {e : Entry}
  {entries : List Entry} {message : List (Value × Value)} {values : List Value}

/-! ## One field -/

/-- A value that fits its field can be sent in it. -/
theorem sends_of_fits (hgood : Regular Good) (hp : Good p) (hslots : p.slots = .ok slots) (hs : s ∈ slots)
    (hfits : fits conforms s v = true) (hlengths : valueLengthsFit lengthsFit s v = true) : Sends s v where
  scalar := by
    intro t ht
    rw [fits_scalar ht] at hfits
    rw [valueLengthsFit_scalar ht] at hlengths
    exact ⟨hfits, hlengths⟩
  message := by
    intro q hq
    simp only [fits, hq] at hfits
    simp only [valueLengthsFit, hq, Bool.and_eq_true] at hlengths
    have hq := hgood.embedded p slots s q hp hslots hs hq
    exact ⟨sendable_of_conforms hgood hq hfits hlengths.2, of_decide_eq_true hlengths.1⟩

/-- What fits into a run has no length of its own. -/
theorem contentOf_run {t : Scalar} (ht : s.runType? = some t) (hv : isOf t v = true) : contentOf v = [] := by
  have hwire := (runType?_eq_some ht).2
  cases v with
  | str a => cases t <;> first | exact absurd rfl hwire | cases hv
  | bytes a => cases t <;> first | exact absurd rfl hwire | cases hv
  | _ => rfl

theorem chunk_values {t : Scalar} (ht : s.runType? = some t) (hvalues : ∀ v ∈ values, isOf t v = true) :
    ∀ v ∈ values, isOf t v = true ∧ isLength (contentOf v).length = true := by
  intro v hv
  rw [contentOf_run ht (hvalues v hv)]
  exact ⟨hvalues v hv, rfl⟩

section

variable (hgood : Regular Good) (hp : Good p) (hslots : p.slots = .ok slots)

include hgood hp hslots

/-- A field is written as its bytes. -/
theorem Entry.Valid.appends (h : e.Valid slots) : Appends e.write e.bytes := by
  have hregular := hgood.slots p slots hp hslots
  cases h with
  | single hs hfits hlengths =>
    have hsends := sends_of_fits hgood hp hslots hs hfits hlengths
    refine appends_writeValue (hregular.range _ hs) (fun t ht => (hsends.scalar t ht).1) fun q hq => ?_
    obtain ⟨hsendable, -⟩ := hsends.message q hq
    exact ⟨hsendable.appends, hsendable.length⟩
  | chunk hs _ ht hvalues hsize =>
    exact appends_run (hregular.range _ hs) (chunk_values ht hvalues) (of_decide_eq_true hsize)
  | foreign =>
    exact (Cursor.appends_append _).bind (Cursor.appends_append _)

/-- A field arrives at a message. -/
theorem Entry.Valid.streams (h : e.Valid slots) (hready : ∀ s ∈ slots, Ready s message) :
    Streams (Cursor.readNext (readField read slots)) e.bytes message (e.arrive message) := by
  have hregular := hgood.slots p slots hp hslots
  cases h with
  | @single s v hs hfits hlengths =>
    have hsends := sends_of_fits hgood hp hslots hs hfits hlengths
    have hemb : ∀ q q', s.target = .message q → q = q' → ReadsAs q' (encode q v) (normal q' v) := by
      rintro q _ hq rfl
      exact (hsends.message q hq).1.reads
    have hfield := streams_field hregular hs s.narrows_self hsends hemb (hready s hs)
    rwa [received_normal] at hfield
  | chunk hs hrep ht hvalues hsize =>
    exact streams_run hregular hs hrep ht (chunk_values ht hvalues) (of_decide_eq_true hsize) (hready _ hs)
  | foreign hfront hkey hunknown hpayload =>
    exact streams_skipped hfront hkey hunknown hpayload message

end

/-! ## What a message holds -/

/-- A field that holds the outcome of some values can take more of them. -/
theorem ready_of_outcome (h : Value.find? message s.field.name = s.outcome values) : Ready s message := by
  intro hrep
  rw [Slot.outcome, if_pos hrep] at h
  exact ⟨values, h⟩

/-- A message starts with the outcome of no values at all. -/
theorem outcome_initial (h : Slot.Apart slots) (hs : s ∈ slots) :
    Value.find? (initial slots) s.field.name = s.outcome [] := by
  rw [initial_eq h, h.find?_filterMap (fun s _ => s.initial?_key) hs]
  unfold Slot.initial? Slot.outcome
  split
  · rfl
  · show Option.map Prod.snd _ = if s.field.default = .none then none else some s.field.default
    split <;> rfl

/-- Receiving values leaves a message alone, or puts one entry into it. -/
theorem receive_cases (s : Slot) (message : List (Value × Value)) (values : List Value) :
    receive s message values = message ∨
      ∃ v, receive s message values = Value.put message s.field.name v := by
  unfold receive
  split
  · split
    · exact .inr ⟨_, rfl⟩
    · exact .inl rfl
  · split
    · exact .inr ⟨_, rfl⟩
    · exact .inl rfl

/-- Values that arrive for a slot add to those that have arrived. -/
theorem find?_receive_self (h : Value.find? message s.field.name = s.outcome values) (more : List Value) :
    Value.find? (receive s message more) s.field.name = s.outcome (values ++ more) := by
  unfold Slot.outcome at h ⊢
  cases hrep : s.field.repeated with
  | true =>
    rw [if_pos hrep] at h
    rw [receive_list hrep h, Value.find?_put_self, if_pos rfl]
  | false =>
    rw [hrep] at h
    cases hmore : more.getLast? with
    | none =>
      rw [List.getLast?_eq_none_iff] at hmore
      subst hmore
      have hsame : receive s message [] = message := by simp [receive, hrep]
      rw [hsame, List.append_nil]
      exact h
    | some v =>
      have hlast : (values ++ more).getLast? = some v := by simp [List.getLast?_append, hmore]
      simp only [receive, hrep, Bool.false_eq_true, if_false, hmore, hlast, Value.find?_put_self]

/-- They leave the other slots alone. -/
theorem find?_receive_other (hregular : Slot.Regular slots) (hkeyed : Keyed slots message) (hu : u ∈ slots)
    (hs : s ∈ slots) (htag : u.field.tag ≠ s.field.tag) (more : List Value) :
    Value.find? (receive u message more) s.field.name = Value.find? message s.field.name := by
  rcases receive_cases u message more with hsame | ⟨v, hput⟩
  · rw [hsame]
  · have hapart : u.field.name.sameKey s.field.name = false := by
      rw [← Bool.not_eq_true]
      intro hkey
      apply htag
      rw [hregular.names.eq_of_sameKey hu hs hkey]
    rw [hput, hkeyed.find?_put hregular.names hu hapart]

theorem Keyed.receive (h : Keyed slots message) (hs : s ∈ slots) (more : List Value) :
    Keyed slots (receive s message more) := by
  rcases receive_cases s message more with hsame | ⟨v, hput⟩
  · rwa [hsame]
  · rw [hput]
    exact h.put hs v

/-- Whatever arrives, the entries of a message belong to its slots. -/
theorem Keyed.arrive (h : Keyed slots message) (he : e.Valid slots) : Keyed slots (e.arrive message) := by
  cases he with
  | single hs _ _ => exact h.receive hs _
  | chunk hs _ _ _ _ => exact h.receive hs _
  | foreign => exact h

/-- What a field brings for a slot is what arrives there. -/
theorem find?_arrive (hregular : Slot.Regular slots) (hkeyed : Keyed slots message) (he : e.Valid slots)
    (hs : s ∈ slots) (h : Value.find? message s.field.name = s.outcome values) :
    Value.find? (e.arrive message) s.field.name = s.outcome (values ++ e.valuesFor s) := by
  -- values of a slot with this tag are values of this slot
  have hreceive : ∀ u ∈ slots, ∀ more, Value.find? (receive u message more) s.field.name =
      s.outcome (values ++ if u.field.tag = s.field.tag then more else []) := by
    intro u hu more
    by_cases htag : u.field.tag = s.field.tag
    · rw [hregular.eq_of_tag hu hs htag, if_pos rfl]
      exact find?_receive_self h more
    · rw [if_neg htag, List.append_nil, find?_receive_other hregular hkeyed hu hs htag]
      exact h
  cases he with
  | single hu _ _ => exact hreceive _ hu _
  | chunk hu _ _ _ _ => exact hreceive _ hu _
  | foreign =>
    show Value.find? message s.field.name = s.outcome (values ++ [])
    rw [List.append_nil, h]

/-! ## Streams -/

/-- All fields in turn. The induction is on the stream; `before` are the values of each slot that have
arrived. -/
theorem streams_entries (hgood : Regular Good) (hp : Good p) (hslots : p.slots = .ok slots)
    (hvalid : ∀ e ∈ entries, e.Valid slots) (before : Slot → List Value) (hkeyed : Keyed slots message)
    (hbefore : ∀ s ∈ slots, Value.find? message s.field.name = s.outcome (before s)) :
    ∃ message', Streams (Cursor.readNext (readField read slots)) (entries.flatMap Entry.bytes) message
        message' ∧
      Keyed slots message' ∧ ∀ s ∈ slots, Value.find? message' s.field.name =
        s.outcome (before s ++ entries.flatMap (Entry.valuesFor s)) := by
  induction entries generalizing message before with
  | nil =>
    refine ⟨message, .nil _, hkeyed, fun s hs => ?_⟩
    rw [List.flatMap_nil, List.append_nil]
    exact hbefore s hs
  | cons e entries ih =>
    have he := hvalid e (by simp)
    have hregular := hgood.slots p slots hp hslots
    have hfirst := he.streams hgood hp hslots fun s hs => ready_of_outcome (hbefore s hs)
    obtain ⟨message', hrest, hkeyed', hafter⟩ := ih (fun e he => hvalid e (by simp [he]))
      (fun s => before s ++ e.valuesFor s) (hkeyed.arrive he)
      (fun s hs => find?_arrive hregular hkeyed he hs (hbefore s hs))
    refine ⟨message', hfirst.append hrest, hkeyed', fun s hs => ?_⟩
    rw [hafter s hs, List.flatMap_cons, List.append_assoc]

/-- A stream of fields is read as the message that holds what they bring for each slot. -/
theorem readsAs_entries (hgood : Regular Good) (hp : Good p) (hslots : p.slots = .ok slots)
    (hvalid : ∀ e ∈ entries, e.Valid slots) :
    ∃ message, ReadsAs p (entries.flatMap Entry.bytes) (.dict message) ∧
      keysKnown slots message = true ∧
      ∀ s ∈ slots, Value.find? message s.field.name = s.outcome (entries.flatMap (Entry.valuesFor s)) := by
  have hapart := (hgood.slots p slots hp hslots).names
  obtain ⟨message, hstreams, hkeyed, hholds⟩ := streams_entries hgood hp hslots hvalid (fun _ => [])
    (keyed_initial hapart) (fun s hs => outcome_initial hapart hs)
  refine ⟨message, fun c stop tail hrest hstop => ?_, hkeyed.keysKnown, hholds⟩
  obtain ⟨w, hfields⟩ := Cursor.readFields_takes hstreams hrest hstop
  refine ⟨w, ?_⟩
  rw [read_eq, hslots, lift_ok_bind, bind_of_ok hfields]
  rfl

end Codec

end ProtoScribe
