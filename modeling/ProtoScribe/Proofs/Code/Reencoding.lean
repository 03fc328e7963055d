import ProtoScribe.Proofs.Code.RoundTrip
import ProtoScribe.Proofs.Code.Safety
import ProtoScribe.Proofs.Codec.Reencoding

/-!
# Writing what was read

Whatever bytes a generated reader accepts, the generated writer makes bytes of the result that stand for
the same message: reading them gives a message that agrees with it, and writing that one gives the same
bytes again (`read_messages_settle`).

The first bytes need not be those that are written: they may have unknown fields, fields out of order
and numbers that are longer than needed. After one round nothing changes any more.
-/

namespace ProtoScribe.Code

open Run

variable {s : Schema} {options : Options} {m : Module} {p : Place} {path : String} {v : Value}

/-- What a generated reader makes of any bytes can be written. Reading what was written gives a message
that agrees with it, and writing that message gives the same bytes. -/
theorem read_messages_settle (h : Compiled s options m p path) (hr : options.noRead = false)
    (hw : options.noWrite = false) (hnames : s.fieldsApart = true) (htags : s.wellTagged = true)
    (hkeywords : s.keywordFree = true) {data : List UInt8} {c : Cursor}
    (hread : m.read path .none (.ofBytes data) = .ok v c) (hlengths : Codec.lengthsFit p v = true) :
    ∃ bytes c₁ v' c₂ c₃, (m.write path v >>= fun _ => Cursor.finish) .empty = .ok bytes c₁ ∧
      m.read path .none (.ofBytes bytes) = .ok v' c₂ ∧ c₂.pos = bytes.length ∧
      Codec.agrees p v v' = true ∧
      (m.write path v' >>= fun _ => Cursor.finish) .empty = .ok bytes c₃ := by
  obtain ⟨root, hroot, hp, hlinked⟩ := h.linked
  have hregular := regular_of_context hroot hnames htags
  have policy := policy_of_linked hroot hnames hlinked hr fun _ he => he
  -- both messages are the result of reading, so what is known of such a message holds of both
  have hstable : ∀ {data v c}, m.read path .none (.ofBytes data) = .ok v c → Codec.Stable p v := by
    intro data v c hread
    rw [h.read_eq hr] at hread
    refine Codec.read_stable policy hregular (fun p slots hp hslots slot hslot => ?_) ⟨hp, h.isMessage⟩
      (fun e he => by cases he) hread
    exact Schema.slots_messageDefault hroot hkeywords hp.1 hslots hslot
  have hfirst := hstable hread
  have hsends := hfirst.sendable hlengths
  obtain ⟨⟨c₁, hwrite⟩, c₂, hread', hpos⟩ := h.exchange h hr hw hsends hsends.reads
  have hsecond := hstable hread'
  have hsends' := hsecond.sendable (by rw [hfirst.lengths_eq, hlengths])
  obtain ⟨⟨c₃, hwrite'⟩, -⟩ := h.exchange h hr hw hsends' hsends'.reads
  rw [hfirst.encode_eq] at hwrite'
  exact ⟨_, c₁, _, c₂, c₃, hwrite, hread', hpos, hfirst.agrees, hwrite'⟩

/-- A node as another writer may put it: the marks come in a run and alone, the weight is a negative
zero, there is a field that no slot takes, and the number of the last mark is longer than needed. -/
def looseNode : List UInt8 :=
  [0x1a, 0x02, 0x01, 0x04, 0x15, 0x00, 0x00, 0x00, 0x80, 0x4a, 0x01, 0x07, 0x18, 0x86, 0x00,
    0x22, 0x05, 0x0a, 0x01, 0x78, 0x28, 0x01, 0x0a, 0x01, 0x61]

/-- Whether bytes are read as a message whose lengths fit. -/
def readFits (data : List UInt8) (p : Place) : Bool :=
  match Codec.read p .none (.ofBytes data) with
  | .ok v _ => Codec.lengthsFit p v
  | .error _ _ => false

/-- Bytes that are found to be readable, and to fit when written again. -/
theorem exists_of_readFits {data : List UInt8} (h : readFits data p = true) :
    ∃ v c, Codec.read p .none (.ofBytes data) = .ok v c ∧ Codec.lengthsFit p v = true := by
  unfold readFits at h
  split at h
  · next v c hread => exact ⟨v, c, hread, h⟩
  · cases h

theorem looseNode_settles : ∃ m p, Compiled treeSchema {} m p "Node" ∧ ∃ v c,
    m.read "Node" .none (.ofBytes looseNode) = .ok v c ∧
    ∃ bytes c₁ v' c₂ c₃, (m.write "Node" v >>= fun _ => Cursor.finish) .empty = .ok bytes c₁ ∧
      m.read "Node" .none (.ofBytes bytes) = .ok v' c₂ ∧ c₂.pos = bytes.length ∧
      Codec.agrees p v v' = true ∧
      (m.write "Node" v' >>= fun _ => Cursor.finish) .empty = .ok bytes c₃ := by
  obtain ⟨m, p, h, hcheck⟩ : ∃ m p, Compiled treeSchema {} m p "Node" ∧ readFits looseNode p = true :=
    exists_compiled _ (by decide +kernel) (by decide +kernel) (by decide +kernel)
  obtain ⟨v, c, hread, hlengths⟩ := exists_of_readFits hcheck
  rw [← h.read_eq rfl] at hread
  exact ⟨m, p, h, v, c, hread, read_messages_settle h rfl rfl (by decide +kernel) (by decide +kernel)
    (by decide +kernel) hread hlengths⟩

end ProtoScribe.Code
