import ProtoScribe.Proofs.Code.Refinement
import ProtoScribe.Proofs.Cursor.Framing

/-!
# Length-delimited values and their ends

A length-delimited value should end where its length says. Generated readers look at that end only
between fields, and between the values of a packed run, while everything they read is checked against
the end of the buffer alone. `framed_exactly_unless_crossed` says what follows: a reader that returns has
reached the declared end, and it has stopped exactly there if and only if nothing that it read crosses
that end. `embedded_read_crosses` is a message that is read past its end.
-/

namespace ProtoScribe.Code

open Run

variable {s : Schema} {options : Options} {m : Module} {p : Place} {path : String}

def fieldStep (slots : List Slot) : List (Value × Value) → Run (List (Value × Value)) :=
  Cursor.readNext (Codec.readField Codec.read slots)

def elementStep (t : Scalar) : PUnit → Run PUnit :=
  fun _ => discard (Cursor.readAs t.coding t.signed)

/-- An embedded message that a generated reader returns, and a packed run, end at or behind the
declared end, and exactly there if and only if no field, or no value, crosses it. -/
theorem framed_exactly_unless_crossed (h : Compiled s options m p path) (hr : options.noRead = false) :
    ∃ slots, p.slots = .ok slots ∧
      (∀ (stop : Nat) c v c', 0 < stop → c.pos ≤ stop → m.read path (.int stop) c = .ok v c' →
        stop ≤ c'.pos ∧
          (c'.pos = stop ↔ ¬ Crosses (fieldStep slots) (Codec.initial slots) c stop)) ∧
      (∀ slot ∈ slots, ∀ t, slot.runType? = some t → ∀ list c v c', c.wireType = .int 2 →
        Cursor.readPacked t.coding t.signed list c = .ok v c' →
        ∃ size c₁, Cursor.readVarint c = .ok size c₁ ∧ size + c₁.pos ≤ c'.pos ∧
          (c'.pos = size + c₁.pos ↔ ¬ Crosses (elementStep t) ⟨⟩ c₁ (size + c₁.pos))) := by
  obtain ⟨root, -, hp, hlinked⟩ := h.linked
  obtain ⟨name, chain, -, hchain, -⟩ := hlinked.reader hr hp h.isMessage
  obtain ⟨slots, hslots⟩ := slots_of_readChain hchain
  refine ⟨slots, hslots, fun stop c v c' hstop hpos hread => ?_, fun slot hmem t ht list c v c' htype hread =>
    Cursor.readPacked_frames (Cursor.isDelimited_of_wireType htype) hread⟩
  rw [h.read_eq hr, Codec.read_eq, hslots, lift_ok_bind] at hread
  obtain ⟨message, c₁, hread, hdone⟩ := bind_eq_ok hread
  cases hdone
  rw [Cursor.readFields, bind_apply, get_apply] at hread
  simp only [Cursor.stopAt_int hstop, lift_ok_bind] at hread
  rw [Cursor.readFieldsTo, bind_apply, get_apply] at hread
  have hfields := Codec.reads_readField Codec.reads_read slots
  obtain ⟨hreached, hframes⟩ := Cursor.readFieldsUntil_frames hfields _ (Nat.le_refl _) hread
  refine ⟨hreached, hframes.trans ?_⟩
  exact ⟨fun hboth => hboth.2, fun hnot => ⟨hpos, hnot⟩⟩

def outerSchema : Schema where
  version := .proto3
  package := .none
  enums := []
  messages := [
    ⟨.str "Outer", [{ name := .str "inner", type := .str "Inner", tag := 1 }], [], []⟩,
    ⟨.str "Inner", [{ name := .str "a", type := .str "int32", tag := 1 }], [], []⟩]

/-- The bytes of an outer message with an inner one of length one, which holds a key and breaks off. -/
def crossing : List UInt8 := [0x0a, 0x01, 0x08, 0x05]

def returnsAt (s : Schema) (path : String) (stop : Value) (c : Cursor) (pos : Nat) : Bool :=
  match Module.ofSchema s {} with
  | .ok m => match m.read path stop c with
    | .ok _ c' => c'.pos = pos
    | .error _ _ => false
  | .error _ => false

/-- A run that is found to return at a position is one of the compiled module. -/
theorem of_returnsAt {stop : Value} {c : Cursor} {pos : Nat} (h : returnsAt s path stop c pos = true)
    (hm : Module.ofSchema s {} = .ok m) : ∃ v c', m.read path stop c = .ok v c' ∧ c'.pos = pos := by
  unfold returnsAt at h
  rw [hm] at h
  simp only at h
  split at h
  · next v c' hread => exact ⟨v, c', hread, of_decide_eq_true h⟩
  · cases h

/-- A field of the embedded message reaches one byte past the end that it was given. -/
theorem crossing_is_crossed : ∃ m p slots, Compiled outerSchema {} m p "Inner" ∧ p.slots = .ok slots ∧
    Crosses (fieldStep slots) (Codec.initial slots) ⟨crossing, 2, .int 2, 4⟩ 3 := by
  obtain ⟨m, p, h, -⟩ : ∃ m p, Compiled outerSchema {} m p "Inner" ∧ true :=
    exists_compiled (fun _ => true) (by decide +kernel) (by decide +kernel) (by decide +kernel)
  obtain ⟨slots, hslots, hread, -⟩ := framed_exactly_unless_crossed h rfl
  have hreturns : returnsAt outerSchema "Inner" (.int (3 : Nat)) ⟨crossing, 2, .int 2, 4⟩ 4 = true := by
    decide +kernel
  obtain ⟨v, c', hok, hpos⟩ := of_returnsAt hreturns h.loaded
  obtain ⟨-, hframes⟩ := hread 3 _ v c' (by decide) (by decide) hok
  refine ⟨m, p, slots, h, hslots, Classical.not_not.1 fun hnot => ?_⟩
  have hthree := hframes.2 hnot
  omega

/-- The inner message ends at the third byte, and the reader of it returns behind the fourth. The
outer reader returns there, too. -/
theorem embedded_read_crosses : ∃ m, Module.ofSchema outerSchema {} = .ok m ∧
    (∃ v c, m.read "Inner" (.int 3) ⟨crossing, 2, .int 2, 4⟩ = .ok v c ∧ c.pos = 4) ∧
    ∃ v c, m.read "Outer" .none (.ofBytes crossing) = .ok v c ∧ c.pos = 4 := by
  obtain ⟨m, p, h, -⟩ : ∃ m p, Compiled outerSchema {} m p "Inner" ∧ true :=
    exists_compiled (fun _ => true) (by decide +kernel) (by decide +kernel) (by decide +kernel)
  refine ⟨m, h.loaded, of_returnsAt ?_ h.loaded, of_returnsAt ?_ h.loaded⟩
  · decide +kernel
  · decide +kernel

end ProtoScribe.Code
