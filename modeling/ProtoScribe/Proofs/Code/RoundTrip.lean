import ProtoScribe.Proofs.Code.Refinement
import ProtoScribe.Proofs.Codec.RoundTrip
import ProtoScribe.Proofs.Scope.Defaults

/-!
# Generated code reads back what it writes

What a generated writer makes of a well-typed message, the generated reader turns into the normal form
of that message, and it reads all of it (`written_messages_read_back`).

Writing and reading by slots do the work (`Codec.appends_encode`, `Codec.read_encode`). They ask for
regular slots, which the fields of a schema with names and tags told apart are.
-/

namespace ProtoScribe.Code

open Run

variable {s : Schema} {options : Options} {m : Module} {p : Place} {path : String} {v : Value}

/-- The messages of a schema are regular if their fields are apart and tagged. -/
theorem regular_of_context {root : Scope} (hroot : s.context = .ok root) (hnames : s.fieldsApart = true)
    (htags : s.wellTagged = true) :
    Codec.Regular fun p => Place.Within root p ∧ p.kind = .message where
  slots := fun _ _ hp hslots => Schema.slots_regular hroot hnames htags hp.1 hp.2 hslots
  embedded := fun _ _ _ _ hp hslots hmem ht => hp.1.slot hslots hmem ht

/-- Writing a message that can be sent, and reading what was written, with the code of two schemas. -/
theorem Compiled.exchange {s' : Schema} {m' : Module} {p' : Place} {w : Value}
    (h : Compiled s options m p path) (h' : Compiled s' options m' p' path)
    (hr : options.noRead = false) (hw : options.noWrite = false) (hv : Codec.Sendable p v)
    (hreads : Codec.ReadsAs p' (Codec.encode p v) w) :
    (∃ c, (m.write path v >>= fun _ => Cursor.finish) .empty = .ok (Codec.encode p v) c) ∧
      ∃ c, m'.read path .none (.ofBytes (Codec.encode p v)) = .ok w c ∧
        c.pos = (Codec.encode p v).length := by
  obtain ⟨c, hwrite⟩ := Cursor.appends_finish hv.appends
  obtain ⟨c', hread, hpos⟩ := hreads.whole
  rw [← h.write_eq hw] at hwrite
  rw [← h'.read_eq hr] at hread
  exact ⟨⟨c, hwrite⟩, c', hread, hpos⟩

/-- A well-typed message is written without a fault, and what was written is read to its end as the
normal form of the message. -/
theorem written_messages_read_back (h : Compiled s options m p path) (hr : options.noRead = false)
    (hw : options.noWrite = false) (hnames : s.fieldsApart = true) (htags : s.wellTagged = true)
    (hconforms : Codec.conforms p v = true) (hlengths : Codec.lengthsFit p v = true) :
    ∃ bytes c c', (m.write path v >>= fun _ => Cursor.finish) .empty = .ok bytes c ∧
      m.read path .none (.ofBytes bytes) = .ok (Codec.normal p v) c' ∧ c'.pos = bytes.length := by
  obtain ⟨root, hroot, hp, -⟩ := h.linked
  have hregular := regular_of_context hroot hnames htags
  have hwrite := Codec.appends_encode hregular ⟨hp, h.isMessage⟩ hconforms hlengths
  have hread := Codec.read_encode hregular ⟨hp, h.isMessage⟩ hconforms hlengths
  have hrest : (Cursor.ofBytes (Codec.encode p v)).rest = Codec.encode p v ++ [] := by
    simp [Cursor.ofBytes, Cursor.rest]
  have hstop : Cursor.stopAt .none (.ofBytes (Codec.encode p v)) =
      .ok ((Cursor.ofBytes (Codec.encode p v)).pos + (Codec.encode p v).length) := by
    simp [Cursor.stopAt, Cursor.ofBytes, Value.truthy]
  obtain ⟨w, hread⟩ := hread _ .none [] hrest hstop
  rw [h.write_eq hw, h.read_eq hr]
  refine ⟨Codec.encode p v, _, _, (bind_of_ok (hwrite _)).trans rfl, hread, ?_⟩
  simp [Cursor.ofBytes]

/-- Trees of labelled nodes, with a default, a packed run and an enumeration. -/
def treeSchema : Schema where
  version := .proto2
  package := .none
  enums := [⟨.str "Kind", [("LEAF", 0), ("INNER", 1)]⟩]
  messages := [{
    name := .str "Node"
    fields := [
      { name := .str "label", type := .str "string", tag := 1, options := [("default", "leaf")] },
      { name := .str "weight", type := .str "float", tag := 2 },
      { name := .str "marks", type := .str "sint32", tag := 3, repeated := true,
        options := [("packed", "true")] },
      { name := .str "children", type := .str "Node", tag := 4, repeated := true },
      { name := .str "kind", type := .str "Kind", tag := 5 },
      { name := .str "data", type := .str "bytes", tag := 6 }]
    enums := []
    messages := [] }]

/-- A node with two children, a weight of negative zero and an entry that belongs to no field. -/
def tree : Value :=
  .dict [(.str "label", .str "root"), (.str "weight", .float ⟨0x8000000000000000⟩),
    (.str "marks", .list [.int (-1), .int 2]),
    (.str "children", .list [
      .dict [(.str "label", .str "leaf"), (.str "data", .bytes [7])], .dict []]),
    (.str "kind", .int 1), (.str "note", .none)]

def normalTree : Value :=
  .dict [(.str "label", .str "root"), (.str "weight", .float .zero),
    (.str "marks", .list [.int (-1), .int 2]),
    (.str "children", .list [
      .dict [(.str "label", .str "leaf"), (.str "weight", .float .zero), (.str "marks", .list []),
        (.str "children", .list []), (.str "kind", .int 0), (.str "data", .bytes [7])],
      .dict [(.str "label", .str "leaf"), (.str "weight", .float .zero), (.str "marks", .list []),
        (.str "children", .list []), (.str "kind", .int 0)]]),
    (.str "kind", .int 1)]

theorem tree_reads_back : ∃ m, Module.ofSchema treeSchema {} = .ok m ∧
    ∃ bytes c c', (m.write "Node" tree >>= fun _ => Cursor.finish) .empty = .ok bytes c ∧
      m.read "Node" .none (.ofBytes bytes) = .ok normalTree c' ∧ c'.pos = bytes.length := by
  obtain ⟨m, p, h, hcheck⟩ : ∃ m p, Compiled treeSchema {} m p "Node" ∧
      (Codec.conforms p tree && Codec.lengthsFit p tree && Codec.normal p tree = normalTree) = true :=
    exists_compiled
      (fun p => Codec.conforms p tree && Codec.lengthsFit p tree && Codec.normal p tree = normalTree)
      (by decide +kernel) (by decide +kernel) (by decide +kernel)
  simp only [Bool.and_eq_true, decide_eq_true_eq] at hcheck
  obtain ⟨⟨hconforms, hlengths⟩, hnormal⟩ := hcheck
  have hback := written_messages_read_back h rfl rfl (by decide +kernel) (by decide +kernel) hconforms hlengths
  rw [hnormal] at hback
  exact ⟨m, h.loaded, hback⟩

end ProtoScribe.Code
