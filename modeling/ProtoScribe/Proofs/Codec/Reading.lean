import Mathlib.Data.List.Pairwise
import ProtoScribe.Codec.Agreement
import ProtoScribe.Codec.Read
import ProtoScribe.Proofs.Codec.Scalars
import ProtoScribe.Proofs.Value

/-!
# What reading a message can end with

`readNested_yields` says once what reading can do: it moves forward, yields a dictionary, reaches the
position it was to stop at, and fails only with faults that a `Policy` allows. A policy picks the
places that may be read and says why nothing else can go wrong there: faults of the wire format are
always allowed; faults of a missing or wrong entry are allowed, or the names of the slots are told
apart, which rules them out.

Where they are told apart, more is known of the dictionary (`Partial`): what a slot holds was read for
it, or is its default. `Stored` is what a single field does to it.
-/

namespace ProtoScribe

open Run

/-! ## Messages with slots told apart -/

/-- Slots with names that are different keys. -/
def Slot.Apart (slots : List Slot) : Prop :=
  slots.Pairwise fun s t => s.field.name.sameKey t.field.name = false

/-- Of slots told apart, two under the same key are one. -/
theorem Slot.Apart.eq_of_sameKey {slots : List Slot} (h : Slot.Apart slots) {s t : Slot} (hs : s ∈ slots)
    (ht : t ∈ slots) (hkey : s.field.name.sameKey t.field.name = true) : s = t := by
  have : Std.Symm fun s t : Slot => s.field.name.sameKey t.field.name = false :=
    ⟨fun s t hst => by rwa [Value.sameKey_comm]⟩
  by_contra hne
  have hfalse := List.Pairwise.forall h hs ht hne
  rw [hkey] at hfalse
  cases hfalse

theorem Slot.initial?_key (s : Slot) {entry : Value × Value} (h : s.initial? = some entry) :
    entry.1 = s.field.name := by
  unfold Slot.initial? at h
  split at h
  · cases h
    rfl
  · split at h
    · cases h
    · cases h
      rfl

/-- Of entries that slots make under their names, a slot finds its own. -/
theorem Slot.Apart.find?_filterMap {slots : List Slot} (h : Slot.Apart slots)
    {make : Slot → Option (Value × Value)}
    (hmake : ∀ s entry, make s = some entry → entry.1 = s.field.name) {s : Slot} (hs : s ∈ slots) :
    Value.find? (slots.filterMap make) s.field.name = (make s).map Prod.snd := by
  induction slots with
  | nil => cases hs
  | cons first rest ih =>
    obtain ⟨hfirst, hrest⟩ := List.pairwise_cons.1 h
    rcases List.mem_cons.1 hs with rfl | hlater
    · -- no later slot makes an entry under this name
      have hothers : Value.find? (rest.filterMap make) s.field.name = none := by
        refine Value.find?_eq_none fun entry hentry => ?_
        obtain ⟨t, ht, hmade⟩ := List.mem_filterMap.1 hentry
        rw [hmake t entry hmade, Value.sameKey_comm]
        exact hfirst t ht
      cases hmade : make s with
      | none =>
        rw [List.filterMap_cons_none hmade, hothers]
        rfl
      | some entry =>
        rw [List.filterMap_cons_some hmade, Value.find?, hmake s entry hmade, Value.sameKey_self]
        rfl
    · cases hmade : make first with
      | none =>
        rw [List.filterMap_cons_none hmade]
        exact ih hrest hlater
      | some entry =>
        rw [List.filterMap_cons_some hmade, Value.find?, hmake first entry hmade, hfirst s hlater]
        exact ih hrest hlater

/-- Fields with different names start with different keys. -/
theorem Slot.Apart.keys {slots : List Slot} (h : Slot.Apart slots) :
    Value.KeysApart (slots.filterMap Slot.initial?) := by
  refine List.Pairwise.filterMap _ (fun s t hst a ha b hb => ?_) h
  rw [s.initial?_key ha, t.initial?_key hb]
  exact hst

namespace Codec

/-- A message starts as the entries of its filled slots, in order. -/
theorem initial_eq {slots : List Slot} (h : Slot.Apart slots) :
    initial slots = slots.filterMap Slot.initial? := by
  rw [initial, Value.foldl_put h.keys (by simp)]
  simp

end Codec

/-! ## Messages that are being read -/

/-- What a slot holds while a message is read, if `P` holds of the values that are read for it. -/
inductive Slot.Holds (P : Value → Prop) (s : Slot) : Option Value → Prop
  | absent : s.field.repeated = false → s.field.default = .none → Holds P s none
  | default : s.field.repeated = false → s.field.default ≠ .none → Holds P s (some s.field.default)
  | single {v : Value} : s.field.repeated = false → P v → Holds P s (some v)
  | items {items : List Value} : s.field.repeated = true → (∀ v ∈ items, P v) →
    Holds P s (some (.list items))

/-- A value that was read for a slot: one of its built-in type, or a message of which `Q` holds. -/
structure Slot.Got (Q : Place → Value → Prop) (s : Slot) (v : Value) : Prop where
  scalar : ∀ t, s.target.scalar? = some t → Codec.isOf t v = true ∧ Codec.normalScalar t v = v
  message : ∀ q, s.target = .message q → Q q v

/-- A repeated field always holds a list. -/
theorem Slot.Holds.list {P : Value → Prop} {s : Slot} {found : Option Value} (h : s.Holds P found)
    (hrep : s.field.repeated = true) : ∃ items, found = some (.list items) ∧ ∀ v ∈ items, P v := by
  cases h with
  | absent hsingle _ | default hsingle _ | single hsingle _ =>
    rw [hrep] at hsingle
    cases hsingle
  | @items items _ hitems => exact ⟨items, rfl, hitems⟩

/-- A slot that starts filled or not holds what it starts with. -/
theorem Slot.holds_initial (P : Value → Prop) (s : Slot) : s.Holds P (s.initial?.map Prod.snd) := by
  unfold Slot.initial?
  cases hrep : s.field.repeated with
  | true => exact .items hrep (by simp)
  | false =>
    by_cases hdefault : s.field.default = .none
    · rw [if_neg (by simp), if_pos hdefault]
      exact .absent hrep hdefault
    · rw [if_neg (by simp), if_neg hdefault]
      exact .default hrep hdefault

namespace Codec

/-- Messages with no keys but the names of slots. -/
def Keyed (slots : List Slot) (message : List (Value × Value)) : Prop :=
  ∀ entry ∈ message, ∃ s ∈ slots, entry.1 = s.field.name

/-- The messages that arise while slots are read: all keys are names of slots, and every slot holds
what was read for it. -/
structure Partial (P : Slot → Value → Prop) (slots : List Slot) (message : List (Value × Value)) : Prop where
  keys : Keyed slots message
  holds : ∀ s ∈ slots, s.Holds (P s) (Value.find? message s.field.name)

section

variable {slots : List Slot} {message : List (Value × Value)} {s t : Slot}

theorem keyed_filterMap {f : Slot → Option (Value × Value)}
    (hf : ∀ s entry, f s = some entry → entry.1 = s.field.name) (slots : List Slot) :
    Keyed slots (slots.filterMap f) := by
  intro entry hentry
  obtain ⟨s, hs, hsome⟩ := List.mem_filterMap.1 hentry
  exact ⟨s, hs, hf s entry hsome⟩

/-- The entries that a message starts with belong to its slots. -/
theorem keyed_initial (h : Slot.Apart slots) : Keyed slots (initial slots) := by
  rw [initial_eq h]
  exact keyed_filterMap (fun s _ => s.initial?_key) slots

theorem Keyed.append {more : List (Value × Value)} (h : Keyed slots message) (hmore : Keyed slots more) :
    Keyed slots (message ++ more) :=
  List.forall_mem_append.2 ⟨h, hmore⟩

theorem Keyed.keysKnown (h : Keyed slots message) : keysKnown slots message = true := by
  unfold Codec.keysKnown
  rw [List.all_eq_true]
  intro entry hentry
  obtain ⟨s, hs, hkey⟩ := h entry hentry
  exact List.any_eq_true.2 ⟨s, hs, decide_eq_true hkey.symm⟩

/-- Storing a value for a field adds no foreign key. -/
theorem Keyed.put (h : Keyed slots message) (hs : s ∈ slots) (v : Value) :
    Keyed slots (Value.put message s.field.name v) := by
  intro entry hentry
  rcases Value.key_of_mem_put hentry with hkey | ⟨e, he, hkey⟩
  · exact ⟨s, hs, hkey⟩
  · obtain ⟨t, ht, hname⟩ := h e he
    exact ⟨t, ht, hkey ▸ hname⟩

/-- Putting a value for one slot leaves the others alone. -/
theorem Keyed.find?_put (h : Keyed slots message) (hapart : Slot.Apart slots) (hs : s ∈ slots)
    (hst : s.field.name.sameKey t.field.name = false) (v : Value) :
    Value.find? (Value.put message s.field.name v) t.field.name = Value.find? message t.field.name := by
  refine Value.find?_put_of_apart v hst fun entry hentry hkey => ?_
  obtain ⟨u, hu, hname⟩ := h entry hentry
  rw [hname] at hkey ⊢
  rwa [hapart.eq_of_sameKey hu hs hkey]

end

section

variable {P : Slot → Value → Prop} {slots : List Slot} {message : List (Value × Value)}

/-- A message that has received nothing holds what its fields start with. -/
theorem partial_initial (P : Slot → Value → Prop) (h : Slot.Apart slots) :
    Partial P slots (initial slots) := by
  refine ⟨keyed_initial h, fun s hs => ?_⟩
  rw [initial_eq h, h.find?_filterMap (fun s _ => s.initial?_key) hs]
  exact s.holds_initial (P s)

/-- Putting what a slot may hold keeps the invariant. -/
theorem Partial.put {s : Slot} {v : Value} (h : Partial P slots message) (hapart : Slot.Apart slots)
    (hs : s ∈ slots) (hv : s.Holds (P s) (some v)) :
    Partial P slots (Value.put message s.field.name v) := by
  refine ⟨h.keys.put hs v, fun t ht => ?_⟩
  by_cases hst : s.field.name.sameKey t.field.name = true
  · -- two slots under one key are one slot
    rw [← hapart.eq_of_sameKey hs ht hst, Value.find?_put_self]
    exact hv
  · rw [Bool.not_eq_true] at hst
    rw [h.keys.find?_put hapart hs hst]
    exact h.holds t ht

end

/-! ## One field -/

/-- A run can be told from a single value by its wire type, because no value in it has that of a run. -/
theorem runType?_eq_some {s : Slot} {t : Scalar} (h : s.runType? = some t) :
    s.target.scalar? = some t ∧ t.coding.wireType ≠ 2 := by
  unfold Slot.runType? at h
  split at h
  · next hpackable =>
    rw [Target.packable, h] at hpackable
    refine ⟨h, ?_⟩
    cases hcoding : t.coding <;> simp_all [Wire.Coding.packable, Wire.Coding.wireType]
  · cases h

section

variable {embedded : Place → Value → Run Value} {s : Slot} {bad : Fault → Prop} {n : Nat}
  {Q : Place → Value → Prop}

/-- Where embedded messages are read as `hemb` says, so is any value. -/
theorem readValue_ends (hwire : ∀ e, e.IsWire → bad e)
    (hemb : ∀ q stop c, s.target = .message q → c.rest.length < n →
      Ends (embedded q (.int stop)) c (fun v c' => Q q v ∧ c.Moves c') (fun e c' => bad e ∧ c.Moves c'))
    {c : Cursor} (hc : c.rest.length ≤ n) :
    Ends (readValue embedded s.target) c (fun v c' => s.Got Q v ∧ c.Moves c')
      (fun e c' => bad e ∧ c.Moves c') := by
  have hscalar : ∀ t, s.target.scalar? = some t → Ends (Cursor.readAs t.coding t.signed) c
      (fun v c' => s.Got Q v ∧ c.Moves c') (fun e c' => bad e ∧ c.Moves c') := by
    intro t ht
    refine (yields_readAs t c).imp (fun v c' ⟨hv, hm⟩ => ⟨⟨fun t' ht' => ?_, fun q hq => ?_⟩, hm⟩)
      (fun e c' ⟨he, hm⟩ => ⟨hwire e he, hm⟩)
    · rw [ht] at ht'
      cases ht'
      exact hv
    · rw [hq] at ht
      cases ht
  cases htarget : s.target with
  | scalar t => exact hscalar t (by rw [htarget]; rfl)
  | enumeration q => exact hscalar .enum (by rw [htarget]; rfl)
  | message q =>
    refine .bind ((Cursor.readVarint_ends c).imp (fun size c₁ h₁ => ?_)
      (fun e c' ⟨he, hm⟩ => ⟨hwire e (.inl he), hm⟩))
    obtain ⟨-, hm₁, -, hrest⟩ := h₁
    refine .bind ((hemb q _ c₁ htarget (by omega)).imp (fun v c' ⟨hv, hm⟩ => ⟨⟨fun t ht => ?_, ?_⟩, ?_⟩)
      (fun _ _ ⟨he, hm⟩ => ⟨he, hm₁.trans hm⟩))
    · rw [htarget] at ht
      cases ht
    · intro q' hq'
      rw [htarget] at hq'
      cases hq'
      exact hv
    · exact hm₁.trans hm

/-- What storing a field does to a message: it puts the value that was read, or extends the list of its
slot. Only a repeated slot that holds no list may leave the message alone. -/
inductive Stored (P : Value → Prop) (s : Slot) (message : List (Value × Value)) :
    List (Value × Value) → Prop
  | same : s.field.repeated = true → (∀ items, Value.find? message s.field.name ≠ some (.list items)) →
    Stored P s message message
  | single {v : Value} : s.field.repeated = false → P v → Stored P s message (Value.put message s.field.name v)
  | extended {old new : List Value} : s.field.repeated = true →
    Value.find? message s.field.name = some (.list old) → (∀ v ∈ new, P v) →
    Stored P s message (Value.put message s.field.name (.list (old ++ new)))

theorem entry_eq_ok {message : List (Value × Value)} {key v : Value} :
    entry message key = .ok v ↔ Value.find? message key = some v := by
  unfold entry
  cases Value.find? message key <;> simp

theorem eq_missingKey_of_entry {message : List (Value × Value)} {key : Value} {e : Fault}
    (h : entry message key = .error e) : e = .missingKey := by
  unfold entry at h
  split at h
  · cases h
  · exact (Except.error.inj h).symm

/-- Storing a value ends as reading it does. A repeated field needs its list to be there. -/
theorem store_ends (hwire : ∀ e, e.IsWire → bad e)
    (hemb : ∀ q stop c, s.target = .message q → c.rest.length < n →
      Ends (embedded q (.int stop)) c (fun v c' => Q q v ∧ c.Moves c') (fun e c' => bad e ∧ c.Moves c'))
    {message : List (Value × Value)}
    (hentry : s.field.repeated = true →
      (∃ items, Value.find? message s.field.name = some (.list items)) ∨
        (bad .missingKey ∧ bad .noMember))
    {c : Cursor} (hc : c.rest.length ≤ n) :
    Ends (store embedded s message) c
      (fun message' c' => Stored (s.Got Q) s message message' ∧ c.Moves c')
      (fun e c' => bad e ∧ c.Moves c') := by
  have hvalue := readValue_ends hwire hemb hc
  unfold store
  split
  · next hrep =>
    have hnone : ∀ e, entry message s.field.name = .error e → bad e := by
      intro e he
      rcases hentry hrep with ⟨items, hitems⟩ | ⟨hmissing, -⟩
      · rw [entry_eq_ok.2 hitems] at he
        cases he
      · rwa [eq_missingKey_of_entry he]
    have hlist : ∀ old, entry message s.field.name = .ok old → (∀ items, old ≠ .list items) →
        (∀ items, Value.find? message s.field.name ≠ some (.list items)) ∧ bad .noMember := by
      intro old hold hne
      have hfound : ∀ items, Value.find? message s.field.name ≠ some (.list items) := by
        intro items hitems
        rw [entry_eq_ok.2 hitems] at hold
        cases hold
        exact hne items rfl
      rcases hentry hrep with ⟨items, hitems⟩ | ⟨-, hmember⟩
      · exact absurd hitems (hfound items)
      · exact ⟨hfound, hmember⟩
    refine .bind (ends_lift (fun old hold => ?_) (fun e he => ⟨hnone e he, .refl c⟩))
    split
    · next t items ht =>
      have hscalar := (runType?_eq_some ht).1
      rw [Cursor.readPacked_list]
      refine .bind (.map ((Cursor.yields_packedValues (yields_readAs t) c).imp (fun vs c' ⟨hvs, hm⟩ => ?_)
        (fun e c' ⟨he, hm⟩ => ⟨hwire e he, hm⟩)))
      refine ends_pure ⟨.extended hrep (entry_eq_ok.1 hold) fun v hv => ⟨fun t' ht' => ?_, fun q hq => ?_⟩, hm⟩
      · rw [hscalar] at ht'
        cases ht'
        exact hvs v hv
      · rw [hq] at hscalar
        cases hscalar
    · next hne =>
      obtain ⟨hfound, hbad⟩ := hlist _ hold fun items h => hne items h
      refine .bind (.map ((Cursor.reads_readPacked _ _ _ c).imp (fun v c' hm => ?_) ?_))
      · exact ends_pure ⟨.same hrep hfound, hm⟩
      · rintro e c' ⟨he | rfl, hm⟩
        · exact ⟨hwire e he, hm⟩
        · exact ⟨hbad, hm⟩
    · next items _ =>
      refine .bind (hvalue.imp (fun v c' ⟨hv, hm⟩ => ?_) (fun _ _ he => he))
      exact ends_pure ⟨.extended hrep (entry_eq_ok.1 hold) (by simpa using hv), hm⟩
    · next hne =>
      exact ends_throw ⟨(hlist _ hold fun items h => hne items h).2, .refl c⟩
  · next hrep =>
    refine .bind (hvalue.imp (fun v c' ⟨hv, hm⟩ => ?_) (fun _ _ he => he))
    exact ends_pure ⟨.single (Bool.eq_false_iff.2 hrep) hv, hm⟩

/-- Storing keeps the invariant of the messages that are being read. -/
theorem Partial.stored {P : Slot → Value → Prop} {slots : List Slot}
    {message message' : List (Value × Value)} (h : Partial P slots message) (hapart : Slot.Apart slots)
    (hs : s ∈ slots) (hstored : Stored (P s) s message message') : Partial P slots message' := by
  cases hstored with
  | same => exact h
  | single hrep hv => exact h.put hapart hs (.single hrep hv)
  | @extended old new hrep hold hnew =>
    obtain ⟨items, hfound, hitems⟩ := (h.holds s hs).list hrep
    rw [hold] at hfound
    cases hfound
    refine h.put hapart hs (.items hrep fun v hv => ?_)
    rcases List.mem_append.1 hv with hv | hv
    · exact hitems v hv
    · exact hnew v hv

end

/-! ## Whole messages -/

/-- Which places may be read, and what may go wrong there. -/
structure Policy (Good : Place → Prop) (bad : Fault → Prop) : Prop where
  wire : ∀ e, e.IsWire → bad e
  slots : ∀ p e, Good p → p.slots = .error e → bad e
  embedded : ∀ p slots s q, Good p → p.slots = .ok slots → s ∈ slots → s.target = .message q → Good q
  apart : ∀ p slots, Good p → p.slots = .ok slots →
    Slot.Apart slots ∨ (bad .missingKey ∧ bad .noMember)

section

variable {Good : Place → Prop} {bad : Fault → Prop} {Q : Place → Value → Prop}

/-- One field: it is stored in its slot, or skipped. -/
theorem readField_ends (policy : Policy Good bad) {embedded : Place → Value → Run Value} {n : Nat}
    (hemb : ∀ q stop c, Good q → c.rest.length < n →
      Ends (embedded q (.int stop)) c (fun v c' => Q q v ∧ c.Moves c') (fun e c' => bad e ∧ c.Moves c'))
    {p : Place} {slots : List Slot} (hp : Good p) (hslots : p.slots = .ok slots) (tag : Nat)
    {message : List (Value × Value)} (hmessage : Slot.Apart slots → Partial (Slot.Got Q) slots message)
    {c : Cursor} (hc : c.rest.length ≤ n) :
    Ends (readField embedded slots tag message) c
      (fun message' c' => (Slot.Apart slots → Partial (Slot.Got Q) slots message') ∧ c.Moves c')
      (fun e c' => bad e ∧ c.Moves c') := by
  unfold readField
  split
  · next s hfind =>
    have hs : s ∈ slots := List.mem_of_find?_eq_some hfind
    have hembs : ∀ q stop c, s.target = .message q → c.rest.length < n →
        Ends (embedded q (.int stop)) c (fun v c' => Q q v ∧ c.Moves c')
          (fun e c' => bad e ∧ c.Moves c') :=
      fun q stop c ht hn => hemb q stop c (policy.embedded p slots s q hp hslots hs ht) hn
    have hentry : s.field.repeated = true →
        (∃ items, Value.find? message s.field.name = some (.list items)) ∨
          (bad .missingKey ∧ bad .noMember) := by
      intro hrep
      rcases policy.apart p slots hp hslots with hapart | hbad
      · obtain ⟨items, hitems, -⟩ := ((hmessage hapart).holds s hs).list hrep
        exact .inl ⟨items, hitems⟩
      · exact .inr hbad
    exact (store_ends policy.wire hembs hentry hc).imp
      (fun message' c' ⟨hstored, hm⟩ => ⟨fun hapart => (hmessage hapart).stored hapart hs hstored, hm⟩)
      (fun _ _ he => he)
  · exact ends_pure ⟨hmessage, .refl c⟩

/-- Reading a message whose fields are handed to `onField`, where `Q` holds of the messages that hold what
was read for their slots. -/
theorem readWith_yields (policy : Policy Good bad)
    (hQ : ∀ p slots message, Good p → p.slots = .ok slots →
      (Slot.Apart slots → Partial (Slot.Got Q) slots message) → Q p (.dict message))
    {onField : List Slot → Nat → List (Value × Value) → Run (List (Value × Value))} {p : Place} {n : Nat}
    (honField : ∀ slots tag message c, p.slots = .ok slots → c.rest.length < n →
      (Slot.Apart slots → Partial (Slot.Got Q) slots message) →
      Ends (onField slots tag message) c
        (fun message' c' => (Slot.Apart slots → Partial (Slot.Got Q) slots message') ∧ c.Moves c')
        (fun e c' => bad e ∧ c.Moves c'))
    (hp : Good p) {stop : Value} {c : Cursor} (hn : c.rest.length ≤ n)
    (hstop : ∀ e, Cursor.stopAt stop c = .error e → bad e) :
    Ends (readWith onField p stop) c
      (fun v c' => Q p v ∧ c.Moves c' ∧ ∀ limit, Cursor.stopAt stop c = .ok limit → limit ≤ c'.pos)
      (fun e c' => bad e ∧ c.Moves c') := by
  refine .bind (ends_lift (fun slots hslots => ?_) (fun e he => ⟨policy.slots p e hp he, .refl c⟩))
  have hbody := fun tag message c => honField slots tag message c hslots
  refine .bind ((Cursor.readFields_ends hbody policy.wire hn (partial_initial _) hstop).imp ?_
    (fun _ _ he => he))
  rintro message c' ⟨hmessage, hm, hreached⟩
  exact ends_pure ⟨hQ p slots message hp hslots hmessage, hm, hreached⟩

/-- Reading with a depth above the number of bytes left. The induction is on the depth: an embedded
message starts after a key and a length, so with fewer bytes. -/
theorem readNested_yields (policy : Policy Good bad)
    (hQ : ∀ p slots message, Good p → p.slots = .ok slots →
      (Slot.Apart slots → Partial (Slot.Got Q) slots message) → Q p (.dict message))
    (depth : Nat) {p : Place} (hp : Good p) {stop : Value} {c : Cursor} (hdepth : c.rest.length < depth)
    (hstop : ∀ e, Cursor.stopAt stop c = .error e → bad e) :
    Ends (readNested depth p stop) c
      (fun v c' => Q p v ∧ c.Moves c' ∧ ∀ limit, Cursor.stopAt stop c = .ok limit → limit ≤ c'.pos)
      (fun e c' => bad e ∧ c.Moves c') := by
  induction depth generalizing p stop c with
  | zero => omega
  | succ depth ih =>
    have hemb : ∀ q stop c, Good q → c.rest.length < depth →
        Ends (readNested depth q (.int stop)) c (fun v c' => Q q v ∧ c.Moves c')
          (fun e c' => bad e ∧ c.Moves c') := by
      intro q stop c hq hc
      exact (ih hq hc fun e he => absurd he Cursor.stopAt_int_ne_error).imp (fun _ _ h => ⟨h.1, h.2.1⟩)
        (fun _ _ h => h)
    refine readWith_yields policy hQ (fun slots tag message c hslots hc hmessage => ?_) hp
      (Nat.le_of_lt_succ hdepth) hstop
    exact readField_ends policy hemb hp hslots tag hmessage (Nat.le_of_lt hc)

/-- Reading yields a dictionary. -/
theorem readNested_ends (policy : Policy Good bad) (depth : Nat) {p : Place} (hp : Good p) {stop : Value}
    {c : Cursor} (hdepth : c.rest.length < depth)
    (hstop : ∀ e, Cursor.stopAt stop c = .error e → bad e) :
    Ends (readNested depth p stop) c
      (fun v c' => (∃ entries, v = .dict entries) ∧ c.Moves c' ∧
        ∀ limit, Cursor.stopAt stop c = .ok limit → limit ≤ c'.pos)
      (fun e c' => bad e ∧ c.Moves c') :=
  readNested_yields (Q := fun _ v => ∃ entries, v = .dict entries) policy
    (fun _ _ message _ _ _ => ⟨message, rfl⟩) depth hp hdepth hstop

end

end Codec

end ProtoScribe
