import ProtoScribe.Proofs.Code.Evolution
import ProtoScribe.Proofs.Codec.Canonical

/-!
# Generated writers encode in two passes

A generated writer inserts the length of an embedded message or of a run behind the fact. What it makes of
a well-typed message is the encoding that is computed from sizes, with the shortest varints for keys and
lengths, and it is the same for all messages with one normal form that set the same slots with NaN as
default (`written_messages_are_encoded`).
-/

namespace ProtoScribe.Code

open Run

variable {s : Schema} {options : Options} {m : Module} {p : Place} {path : String} {v : Value}

section

variable (h : Compiled s options m p path) (hw : options.noWrite = false) (hnames : s.fieldsApart = true)
  (htags : s.wellTagged = true) (hconforms : Codec.conforms p v = true)
  (hlengths : Codec.lengthsFit p v = true)

include h hnames htags hconforms hlengths in
/-- A value that conforms to a compiled message can be sent. -/
theorem Compiled.sendable : Codec.Sendable p v := by
  obtain ⟨root, hroot, hp, -⟩ := h.linked
  exact Codec.sendable_of_conforms (regular_of_context hroot hnames htags) ⟨hp, h.isMessage⟩ hconforms hlengths

include h hw hnames htags hconforms hlengths in
/-- Writing and finishing gives the encoding. -/
theorem Compiled.written :
    ∃ c, (m.write path v >>= fun _ => Cursor.finish) .empty = .ok (Codec.encode p v) c := by
  rw [h.write_eq hw]
  exact Cursor.appends_finish (h.sendable hnames htags hconforms hlengths).appends

end

/-- What is written for a well-typed message is its encoding: the bytes of its slots in the order of
declaration, as long as the sizes say, with the shortest varints. Messages with the same normal form are
written alike, if both set the same slots with NaN as default. -/
theorem written_messages_are_encoded (h : Compiled s options m p path) (hw : options.noWrite = false)
    (hnames : s.fieldsApart = true) (htags : s.wellTagged = true) (hconforms : Codec.conforms p v = true)
    (hlengths : Codec.lengthsFit p v = true) :
    (∃ c, (m.write path v >>= fun _ => Cursor.finish) .empty = .ok (Codec.encode p v) c) ∧
    (∃ slots entries, p.slots = .ok slots ∧ v = .dict entries ∧
      Codec.encode p v = slots.flatMap (Codec.slotBytes Codec.encode entries)) ∧
    (Codec.encode p v).length = Codec.size p v ∧
    (∀ n : Nat, n < 2 ^ 64 → Wire.Shortest (Wire.varint n) n) ∧
    ∀ w, Codec.conforms p w = true → Codec.lengthsFit p w = true → Codec.normal p v = Codec.normal p w →
      Codec.setAlike p v w = true →
      ∃ c, (m.write path w >>= fun _ => Cursor.finish) .empty = .ok (Codec.encode p v) c := by
  have hv := h.sendable hnames htags hconforms hlengths
  refine ⟨h.written hw hnames htags hconforms hlengths, ?_, hv.length, fun n hn => Wire.shortest_varint hn, ?_⟩
  · obtain ⟨slots, entries, hslots, rfl, -⟩ := Codec.of_conforms hconforms
    exact ⟨slots, entries, hslots, rfl, Codec.encode_eq hslots⟩
  · intro w hconforms' hlengths' hnormal halike
    obtain ⟨root, hroot, hp, -⟩ := h.linked
    have hw' := h.sendable hnames htags hconforms' hlengths'
    have hbytes := hv.encode_eq_of_normal (evolving_of_context hroot hnames htags) hw' ⟨hp, h.isMessage⟩
      hnormal halike
    rw [hbytes]
    exact h.written hw hnames htags hconforms' hlengths'

/-- Gauges with parts. A level that was not taken is NaN. -/
def gaugeSchema : Schema where
  version := .proto2
  package := .none
  enums := []
  messages := [{
    name := .str "Gauge"
    fields := [
      { name := .str "level", type := .str "double", tag := 1, options := [("default", "nan")] },
      { name := .str "parts", type := .str "Gauge", tag := 2, repeated := true }]
    enums := []
    messages := [] }]

/-- A gauge with two parts, one of which sets its level to NaN. -/
def gauge : Value :=
  .dict [(.str "parts", .list [.dict [(.str "level", .float (.nan false))], .dict []])]

/-- The same with nothing in place of what is left out, and with an entry that belongs to no field. -/
def looseGauge : Value :=
  .dict [(.str "note", .int 1), (.str "level", .none), (.str "parts", .list [
    .dict [(.str "parts", .list []), (.str "level", .float (.nan false))], .dict [(.str "level", .none)]])]

theorem gauges_are_encoded_alike : ∃ m, Module.ofSchema gaugeSchema {} = .ok m ∧
    ∀ v ∈ [gauge, looseGauge], ∃ c, (m.write "Gauge" v >>= fun _ => Cursor.finish) .empty =
      .ok [18, 9, 9, 0, 0, 0, 0, 0, 0, 248, 127, 18, 0] c := by
  obtain ⟨m, p, h, hcheck⟩ : ∃ m p, Compiled gaugeSchema {} m p "Gauge" ∧
      ([gauge, looseGauge].all (fun v => Codec.conforms p v && Codec.lengthsFit p v) &&
        Codec.normal p gauge = Codec.normal p looseGauge && Codec.setAlike p gauge looseGauge &&
        Codec.encode p gauge = [18, 9, 9, 0, 0, 0, 0, 0, 0, 248, 127, 18, 0]) = true :=
    exists_compiled
      (fun p => [gauge, looseGauge].all (fun v => Codec.conforms p v && Codec.lengthsFit p v) &&
        Codec.normal p gauge = Codec.normal p looseGauge && Codec.setAlike p gauge looseGauge &&
        Codec.encode p gauge = [18, 9, 9, 0, 0, 0, 0, 0, 0, 248, 127, 18, 0])
      (by decide +kernel) (by decide +kernel) (by decide +kernel)
  simp only [Bool.and_eq_true, decide_eq_true_eq, List.all_cons, List.all_nil, and_true] at hcheck
  obtain ⟨⟨⟨⟨⟨hconforms, hlengths⟩, hconforms', hlengths'⟩, hnormal⟩, halike⟩, hbytes⟩ := hcheck
  have hwritten := written_messages_are_encoded h rfl (by decide +kernel) (by decide +kernel) hconforms hlengths
  rw [hbytes] at hwritten
  refine ⟨m, h.loaded, ?_⟩
  simp only [List.mem_cons, List.not_mem_nil, or_false, forall_eq_or_imp, forall_eq]
  exact ⟨hwritten.1, hwritten.2.2.2.2 looseGauge hconforms' hlengths' hnormal halike⟩

def unsureGauge : Value := .dict [(.str "level", .float (.nan false))]

/-- It has the normal form of a gauge whose level is not set, and other bytes. -/
theorem nan_default_is_written : ∃ m p, Compiled gaugeSchema {} m p "Gauge" ∧
    (∀ v ∈ [unsureGauge, .dict []], Codec.conforms p v = true ∧ Codec.lengthsFit p v = true) ∧
    Codec.normal p unsureGauge = Codec.normal p (.dict []) ∧
    (∃ c, (m.write "Gauge" unsureGauge >>= fun _ => Cursor.finish) .empty =
      .ok [9, 0, 0, 0, 0, 0, 0, 248, 127] c) ∧
    ∃ c, (m.write "Gauge" (.dict []) >>= fun _ => Cursor.finish) .empty = .ok [] c := by
  obtain ⟨m, p, h, hcheck⟩ : ∃ m p, Compiled gaugeSchema {} m p "Gauge" ∧
      ([unsureGauge, .dict []].all (fun v => Codec.conforms p v && Codec.lengthsFit p v) &&
        Codec.normal p unsureGauge = Codec.normal p (.dict []) &&
        Codec.encode p unsureGauge = [9, 0, 0, 0, 0, 0, 0, 248, 127] && Codec.encode p (.dict []) = []) = true :=
    exists_compiled
      (fun p => [unsureGauge, .dict []].all (fun v => Codec.conforms p v && Codec.lengthsFit p v) &&
        Codec.normal p unsureGauge = Codec.normal p (.dict []) &&
        Codec.encode p unsureGauge = [9, 0, 0, 0, 0, 0, 0, 248, 127] && Codec.encode p (.dict []) = [])
      (by decide +kernel) (by decide +kernel) (by decide +kernel)
  simp only [Bool.and_eq_true, decide_eq_true_eq, List.all_eq_true] at hcheck
  obtain ⟨⟨⟨hfits, hnormal⟩, hbytes⟩, hnil⟩ := hcheck
  have hwritten : ∀ v ∈ [unsureGauge, .dict []], ∃ c,
      (m.write "Gauge" v >>= fun _ => Cursor.finish) .empty = .ok (Codec.encode p v) c := by
    intro v hv
    exact h.written rfl (by decide +kernel) (by decide +kernel) (hfits v hv).1 (hfits v hv).2
  refine ⟨m, p, h, hfits, hnormal, hbytes ▸ hwritten unsureGauge (by simp), ?_⟩
  exact hnil ▸ hwritten (.dict []) (by simp)

end ProtoScribe.Code
