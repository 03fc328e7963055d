import ProtoScribe.Proofs.Code.Refinement
import ProtoScribe.Proofs.Scope.Fields

/-!
# Reading arbitrary bytes is safe

A generated reader that is handed any bytes at all comes to an end, with a dictionary and at the end of
the bytes, or with a fault of the wire format or of text (`reading_is_safe`). It leaves the bytes alone
and never points outside them.

How deeply calls may nest is left open: with any bound on them, a reader ends in one of these ways, or runs
into the bound (`exists_readsSafely`). A bound of twice the bytes and two is never run into.

The work is in `Codec.readNested_ends`. What is left is to say why its assumptions hold of the messages
of a compiled schema: their types all resolve, what they embed are messages again, and every repeated
slot holds a list throughout, because no other slot can be stored under its name.
-/

namespace ProtoScribe.Code

open Run

variable {s : Schema} {options : Options} {m : Module} {p : Place} {path : String}

/-- Reading messages of a linked tree can only fail on malformed bytes. -/
theorem policy_of_linked {root : Scope} (hroot : s.context = .ok root) (hs : s.fieldsApart = true)
    (h : Linked options root m) (hr : options.noRead = false) {bad : Fault → Prop}
    (hwire : ∀ e, e.IsWire → bad e) :
    Codec.Policy (fun p => Place.Within root p ∧ p.kind = .message) bad where
  wire := hwire
  slots := by
    rintro p e ⟨hp, hkind⟩ he
    obtain ⟨slots, hslots⟩ := h.exists_slots hr hp hkind
    rw [hslots] at he
    cases he
  embedded := fun _ _ _ _ hp hslots hmem ht => hp.1.slot hslots hmem ht
  apart := fun _ _ hp hslots => .inl (Schema.slots_apart hroot hs hp.1 hp.2 hslots)

/-! ## Any number of calls

How many calls may nest is not up to a reader. With too few of them, one more fault can end it. -/

def IsMessage (_ : Place) (v : Value) : Prop := ∃ entries, v = .dict entries

/-- Messages at good places are read to where they stop, or end with a fault that is allowed. -/
def ReadsSafely (Good : Place → Prop) (bad : Fault → Prop) (embedded : Place → Value → Run Value) : Prop :=
  ∀ p stop c, Good p → (∀ e, Cursor.stopAt stop c ≠ .error e) →
    Ends (embedded p stop) c
      (fun v c' => IsMessage p v ∧ c.Moves c' ∧ ∀ limit, Cursor.stopAt stop c = .ok limit → limit ≤ c'.pos)
      (fun e c' => bad e ∧ c.Moves c')

section

variable {Good : Place → Prop} {bad : Fault → Prop}

/-- A message is read safely if its fields are. -/
theorem readsSafely_readWith (policy : Codec.Policy Good bad)
    {field : List Slot → Nat → List (Value × Value) → Run (List (Value × Value))}
    (hfield : ∀ p slots tag message c, Good p → p.slots = .ok slots →
      (Slot.Apart slots → Codec.Partial (Slot.Got IsMessage) slots message) →
      Ends (field slots tag message) c
        (fun message' c' => (Slot.Apart slots → Codec.Partial (Slot.Got IsMessage) slots message') ∧ c.Moves c')
        (fun e c' => bad e ∧ c.Moves c')) :
    ReadsSafely Good bad (Codec.readWith field) := by
  intro p stop c hp hstop
  refine Codec.readWith_yields policy (fun _ _ message _ _ _ => ⟨message, rfl⟩) ?_ hp (Nat.le_refl _)
    fun e he => absurd he (hstop e)
  intro slots tag message c hslots _ hmessage
  exact hfield p slots tag message c hp hslots hmessage

/-- One more level: fields are read safely if embedded messages are. -/
theorem readsSafely_step (policy : Codec.Policy Good bad) {embedded : Place → Value → Run Value}
    (h : ReadsSafely Good bad embedded) : ReadsSafely Good bad (Codec.readWith (Codec.readField embedded)) := by
  refine readsSafely_readWith policy fun p slots tag message c hp hslots hmessage => ?_
  refine Codec.readField_ends policy (fun q stop c hq _ => ?_) hp hslots tag hmessage (Nat.le_refl _)
  exact (h q (.int stop) c hq fun e => Cursor.stopAt_int_ne_error).imp (fun _ _ hv => ⟨hv.1, hv.2.1⟩)
    (fun _ _ he => he)

/-- Without any calls left, nothing is read at all. -/
theorem readsSafely_zero (hdeep : bad .tooDeep) : ReadsSafely Good bad fun _ _ => throw .tooDeep :=
  fun _ _ c _ _ => ends_throw ⟨hdeep, .refl c⟩

/-- With one call left, the message is begun, and its first field is not read any more. -/
theorem readsSafely_one (policy : Codec.Policy Good bad) (hdeep : bad .tooDeep) :
    ReadsSafely Good bad (Codec.readWith fun _ _ _ => throw .tooDeep) :=
  readsSafely_readWith policy fun _ _ _ _ c _ _ _ => ends_throw ⟨hdeep, .refl c⟩

/-- Whatever the number of calls, what a reader does with them is safe. Messages take calls in pairs, so
the induction is in steps of two. -/
theorem exists_readsSafely (policy : Codec.Policy Good bad) (hdeep : bad .tooDeep) {root : Scope}
    (h : Linked options root m) (hr : options.noRead = false) : ∀ depth, ∃ embedded,
      CallsRead root m.globals (invoke m.globals depth) embedded ∧ ReadsSafely Good bad embedded
  | 0 => ⟨_, callsRead_zero h hr, readsSafely_zero hdeep⟩
  | 1 => ⟨_, callsRead_one h hr, readsSafely_one policy hdeep⟩
  | depth + 2 => by
    obtain ⟨embedded, hcalls, hsafe⟩ := exists_readsSafely policy hdeep h hr depth
    exact ⟨_, hcalls.step h hr, readsSafely_step policy hsafe⟩

end

/-- Whatever the bytes are, a generated reader ends: with a dictionary at the end of the bytes, or with
a fault that malformed bytes cause. It changes neither the bytes nor their length, and stays within
them. This is so where calls may nest as deeply as they have to; with any other bound on them, the reader
may also run into the bound, and then leaves the cursor in the same order. -/
theorem reading_is_safe (h : Compiled s options m p path) (hr : options.noRead = false)
    (hs : s.fieldsApart = true) (data : List UInt8) :
    Ends (m.read path .none) (.ofBytes data)
      (fun v c => (∃ entries, v = .dict entries) ∧ c.pos = data.length ∧ c.buf = data ∧
        c.length = data.length)
      (fun e c => (e.kind = .decode ∨ e.kind = .invalidText) ∧ c.pos ≤ data.length ∧ c.buf = data ∧
        c.length = data.length) ∧
    ∀ depth, Ends (m.readWithin depth path .none) (.ofBytes data)
      (fun v c => (∃ entries, v = .dict entries) ∧ c.pos = data.length ∧ c.buf = data ∧
        c.length = data.length)
      (fun e c => ((e.kind = .decode ∨ e.kind = .invalidText) ∨ e = .tooDeep) ∧ c.pos ≤ data.length ∧
        c.buf = data ∧ c.length = data.length) := by
  obtain ⟨root, hroot, hp, hlinked⟩ := h.linked
  have hstop : Cursor.stopAt .none (.ofBytes data) = .ok data.length := rfl
  have hnumber : ∀ e, Cursor.stopAt .none (.ofBytes data) ≠ .error e := by
    intro e he
    rw [hstop] at he
    cases he
  -- how a reader moves says what is left of the bytes
  have hokay : ∀ v c, ((∃ entries, v = Value.dict entries) ∧ (Cursor.ofBytes data).Moves c ∧
      ∀ limit, Cursor.stopAt .none (.ofBytes data) = .ok limit → limit ≤ c.pos) →
      (∃ entries, v = .dict entries) ∧ c.pos = data.length ∧ c.buf = data ∧ c.length = data.length := by
    rintro v c ⟨hdict, hmoves, hreached⟩
    have hle : data.length ≤ c.pos := hreached _ hstop
    have hwithin : c.pos ≤ max 0 data.length := hmoves.within
    exact ⟨hdict, by omega, hmoves.buf_eq, hmoves.length_eq⟩
  have hfault : ∀ c, (Cursor.ofBytes data).Moves c →
      c.pos ≤ data.length ∧ c.buf = data ∧ c.length = data.length := by
    intro c hmoves
    have hwithin : c.pos ≤ max 0 data.length := hmoves.within
    exact ⟨by omega, hmoves.buf_eq, hmoves.length_eq⟩
  constructor
  · have policy := policy_of_linked hroot hs hlinked hr fun _ he => he
    have hread := Codec.readNested_ends policy ((Cursor.ofBytes data).rest.length + 1) ⟨hp, h.isMessage⟩
      (Nat.lt_succ_self _) (fun e he => absurd he (hnumber e))
    rw [h.read_eq hr]
    exact (hread.imp hokay fun e c ⟨hwire, hmoves⟩ => ⟨hwire, hfault c hmoves⟩).congr
      (Codec.read_apply p .none _)
  · intro depth
    have hwire : ∀ e : Fault, e.IsWire → e.IsWire ∨ e = .tooDeep := fun _ => .inl
    have policy := policy_of_linked hroot hs hlinked hr hwire
    obtain ⟨embedded, hcalls, hsafe⟩ := exists_readsSafely policy (.inr rfl) hlinked hr depth
    rw [hlinked.readWithin_eq hr hcalls hp h.isMessage h.path_eq]
    exact (hsafe p .none _ ⟨hp, h.isMessage⟩ hnumber).imp hokay fun e c ⟨hbad, hmoves⟩ =>
      ⟨hbad, hfault c hmoves⟩

theorem node_reading_is_safe : ∃ m p, Compiled nodeSchema {} m p "Node" ∧
    nodeSchema.fieldsApart = true ∧
    Ends (m.read "Node" .none) (.ofBytes [0x12, 0x05, 0x08])
      (fun v c => (∃ entries, v = .dict entries) ∧ c.pos = 3 ∧ c.buf = [0x12, 0x05, 0x08] ∧ c.length = 3)
      (fun e c => (e.kind = .decode ∨ e.kind = .invalidText) ∧ c.pos ≤ 3 ∧ c.buf = [0x12, 0x05, 0x08] ∧
        c.length = 3) ∧
    Ends (m.readWithin 3 "Node" .none) (.ofBytes [0x12, 0x05, 0x08])
      (fun v c => (∃ entries, v = .dict entries) ∧ c.pos = 3 ∧ c.buf = [0x12, 0x05, 0x08] ∧ c.length = 3)
      (fun e c => ((e.kind = .decode ∨ e.kind = .invalidText) ∨ e = .tooDeep) ∧ c.pos ≤ 3 ∧
        c.buf = [0x12, 0x05, 0x08] ∧ c.length = 3) := by
  obtain ⟨m, p, h, -⟩ : ∃ m p, Compiled nodeSchema {} m p "Node" ∧ true :=
    exists_compiled (fun _ => true) (by decide +kernel) (by decide +kernel) (by decide +kernel)
  have hs : nodeSchema.fieldsApart = true := by decide +kernel
  obtain ⟨hread, hwithin⟩ := reading_is_safe h rfl hs [0x12, 0x05, 0x08]
  exact ⟨m, p, h, hs, hread, hwithin 3⟩

end ProtoScribe.Code
