import ProtoScribe.Proofs.Code.RoundTrip
import ProtoScribe.Proofs.Codec.Entries

/-!
# Generated code reads streams of fields

Whatever fields are written one after the other, in whatever order and split, the generated reader takes
all of them. It ends with the message that holds what they bring for each slot, and nothing else
(`entry_streams_read`).
-/

namespace ProtoScribe.Code

open Run

variable {s : Schema} {options : Options} {m : Module} {p : Place} {path : String}

/-- A stream of fields is written without a fault and read to its end. For each slot, the message holds
the values that the fields bring: all of them if the slot is repeated, or else the last one. -/
theorem entry_streams_read (h : Compiled s options m p path) (hr : options.noRead = false)
    (hnames : s.fieldsApart = true) (htags : s.wellTagged = true) :
    ∃ slots, p.slots = .ok slots ∧
      ∀ entries : List Codec.Entry, (∀ e ∈ entries, e.Valid slots) →
        ∃ bytes c message c',
          (entries.forM Codec.Entry.write >>= fun _ => Cursor.finish) .empty = .ok bytes c ∧
          m.read path .none (.ofBytes bytes) = .ok (.dict message) c' ∧ c'.pos = bytes.length ∧
          Codec.keysKnown slots message = true ∧
          ∀ slot ∈ slots, Value.find? message slot.field.name =
            slot.outcome (entries.flatMap (Codec.Entry.valuesFor slot)) := by
  obtain ⟨slots, hslots⟩ := h.exists_slots hr
  obtain ⟨root, hroot, hp, -⟩ := h.linked
  have hregular := regular_of_context hroot hnames htags
  refine ⟨slots, hslots, fun entries hvalid => ?_⟩
  have hwrite : Appends (entries.forM Codec.Entry.write) (entries.flatMap Codec.Entry.bytes) :=
    .forM fun e he => (hvalid e he).appends hregular ⟨hp, h.isMessage⟩ hslots
  obtain ⟨message, hread, hknown, hholds⟩ :=
    Codec.readsAs_entries hregular ⟨hp, h.isMessage⟩ hslots hvalid
  obtain ⟨c, hwritten⟩ := Cursor.appends_finish hwrite
  obtain ⟨c', hread, hpos⟩ := hread.whole
  rw [← h.read_eq hr] at hread
  exact ⟨_, c, message, c', hwritten, hread, hpos, hknown, hholds⟩

/-- Fields of a node: its marks come alone, in a run and in an empty run, between two labels and a
child, and there is a field that belongs to no slot. -/
def nodeEntries (label marks children : Slot) : List Codec.Entry :=
  [.single marks (.int (-3)), .single label (.str "a"), .chunk marks .sint32 [.int 1, .int 2],
    .single children (.dict []), .foreign [0x4a] [0x01, 0x07], .chunk marks .sint32 [],
    .single label (.str "b"), .single marks (.int 1)]

/-- What a place has to be like for its message to be sent the fields of a node. -/
def takesNodeEntries (p : Place) : Bool :=
  match p.slots with
  | .ok [label, weight, marks, children, kind, data] =>
    marks.field.repeated && marks.runType? = some .sint32 && label.target.scalar? = some .string &&
      Codec.fits Codec.conforms children (.dict []) &&
      Codec.valueLengthsFit Codec.lengthsFit children (.dict []) &&
      [label, weight, marks, children, kind, data].all (fun s => s.field.tag ≠ 9) &&
      label.field.name = .str "label" && marks.field.name = .str "marks" &&
      label.outcome ((nodeEntries label marks children).flatMap (Codec.Entry.valuesFor label)) =
        some (.str "b") &&
      marks.outcome ((nodeEntries label marks children).flatMap (Codec.Entry.valuesFor marks)) =
        some (.list [.int (-3), .int 1, .int 2, .int 1])
  | _ => false

/-- The entries are valid for a node whatever its other fields are. -/
theorem nodeEntries_valid {label marks children : Slot} {slots : List Slot}
    (hmem : label ∈ slots ∧ marks ∈ slots ∧ children ∈ slots) (hrep : marks.field.repeated = true)
    (hmarks : marks.runType? = some .sint32) (hlabel : label.target.scalar? = some .string)
    (hchild : Codec.fits Codec.conforms children (.dict []) = true)
    (hlength : Codec.valueLengthsFit Codec.lengthsFit children (.dict []) = true)
    (hforeign : ∀ s ∈ slots, s.field.tag ≠ 9) :
    ∀ e ∈ nodeEntries label marks children, e.Valid slots := by
  have hscalar := (Codec.runType?_eq_some hmarks).1
  have hmark : ∀ n : Int, Codec.isOf .sint32 (.int n) = true →
      (Codec.Entry.single marks (.int n)).Valid slots := by
    intro n hn
    refine .single hmem.2.1 ?_ ?_
    · rwa [Codec.fits_scalar hscalar]
    · rw [Codec.valueLengthsFit_scalar hscalar]
      rfl
  have htext : ∀ a : String, Codec.isLength (Codec.contentOf (.str a)).length = true →
      (Codec.Entry.single label (.str a)).Valid slots := by
    intro a ha
    refine .single hmem.1 ?_ ?_
    · rw [Codec.fits_scalar hlabel]
      rfl
    · rwa [Codec.valueLengthsFit_scalar hlabel]
  have hskipped : (Codec.Entry.foreign [0x4a] [0x01, 0x07]).Valid slots := by
    have hkey : Wire.base128 [0x4a] % 2 ^ 64 = 74 := by decide
    have hpayload : Cursor.Payload 2 ([0x01] ++ [0x07]) := .delimited (by decide) (by decide)
    exact .foreign (by decide) hkey hforeign hpayload
  intro e he
  simp only [nodeEntries, List.mem_cons, List.not_mem_nil, or_false] at he
  rcases he with rfl | rfl | rfl | rfl | rfl | rfl | rfl | rfl
  · exact hmark _ (by decide)
  · exact htext _ (by decide)
  · exact .chunk hmem.2.1 hrep hmarks (by simp [Codec.isOf, Codec.inRange]) (by decide)
  · exact .single hmem.2.2 hchild hlength
  · exact hskipped
  · exact .chunk hmem.2.1 hrep hmarks (by simp) (by decide)
  · exact htext _ (by decide)
  · exact hmark _ (by decide)

theorem node_entries_read : ∃ m p slots, ∃ entries : List Codec.Entry, Compiled treeSchema {} m p "Node" ∧
    p.slots = .ok slots ∧ entries.length = 8 ∧ (∀ e ∈ entries, e.Valid slots) ∧
    ∃ bytes c message c',
      (entries.forM Codec.Entry.write >>= fun _ => Cursor.finish) .empty = .ok bytes c ∧
      m.read "Node" .none (.ofBytes bytes) = .ok (.dict message) c' ∧ c'.pos = bytes.length ∧
      Value.find? message (.str "label") = some (.str "b") ∧
      Value.find? message (.str "marks") = some (.list [.int (-3), .int 1, .int 2, .int 1]) := by
  obtain ⟨m, p, h, hcheck⟩ : ∃ m p, Compiled treeSchema {} m p "Node" ∧ takesNodeEntries p = true :=
    exists_compiled _ (by decide +kernel) (by decide +kernel) (by decide +kernel)
  obtain ⟨slots, hslots, hread⟩ := entry_streams_read h rfl (by decide +kernel) (by decide +kernel)
  unfold takesNodeEntries at hcheck
  rw [hslots] at hcheck
  split at hcheck
  · next label weight marks children kind data hsame =>
    cases hsame
    simp only [Bool.and_eq_true, decide_eq_true_eq, List.all_eq_true] at hcheck
    obtain ⟨⟨⟨⟨⟨⟨⟨⟨⟨hrep, hrun⟩, htext⟩, hchild⟩, hlength⟩, hforeign⟩, hlabel⟩, hmarks⟩, hlast⟩, hlist⟩ :=
      hcheck
    have hvalid := nodeEntries_valid (by simp) hrep hrun htext hchild hlength hforeign
    obtain ⟨bytes, c, message, c', hwrite, hread, hpos, -, hholds⟩ := hread _ hvalid
    refine ⟨m, p, _, _, h, hslots, rfl, hvalid, bytes, c, message, c', hwrite, hread, hpos, ?_, ?_⟩
    · rw [← hlabel, hholds label (by simp), hlast]
    · rw [← hmarks, hholds marks (by simp), hlist]
  · cases hcheck

end ProtoScribe.Code
