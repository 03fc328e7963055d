import ProtoScribe.Proofs.Code.Pruning
import ProtoScribe.Proofs.Code.RoundTrip
import ProtoScribe.Proofs.Codec.Evolution

/-!
# Schemas that grow

A schema with some of its fields left out is accepted if the whole schema is, and the two understand
each other's messages (`schemas_evolve`). The smaller one reads the normal form of what the larger one
writes, without the fields that it does not know. The larger one reads the normal form of what the
smaller one writes, with what its own fields start with. Both hold at every depth.
-/

namespace ProtoScribe.Code

open Run

variable {s : Schema} {options : Options} {m : Module} {p : Place} {path : String}

/-- The messages of a schema meet what evolution asks for, if their fields are apart and tagged. -/
theorem evolving_of_context {root : Scope} (hroot : s.context = .ok root) (hnames : s.fieldsApart = true)
    (htags : s.wellTagged = true) :
    Codec.Evolving fun p => Place.Within root p ∧ p.kind = .message where
  regular := regular_of_context hroot hnames htags
  plain := fun _ _ _ hp hslots hs => Schema.slots_default_ne_dict hroot hp.1 hslots hs

/-- Leave out any fields of a schema. The code that is left reads what the whole code writes as the
normal form without these fields, and the whole code reads what the code that is left writes as the
normal form with empty lists and defaults for these fields. -/
theorem schemas_evolve (h : Compiled s options m p path) (hr : options.noRead = false)
    (hw : options.noWrite = false) (hnames : s.fieldsApart = true) (htags : s.wellTagged = true)
    (keep : Value → Value → Bool) :
    ∃ m', Compiled (s.prune keep) options m' (p.prune keep) path ∧
      (∀ v, Codec.conforms p v = true → Codec.lengthsFit p v = true →
        ∃ bytes c c', (m.write path v >>= fun _ => Cursor.finish) .empty = .ok bytes c ∧
          m'.read path .none (.ofBytes bytes) =
            .ok (Codec.restrict (p.prune keep) (Codec.normal p v)) c' ∧ c'.pos = bytes.length) ∧
      (∀ v, Codec.conforms (p.prune keep) v = true → Codec.lengthsFit (p.prune keep) v = true →
        ∃ bytes c c', (m'.write path v >>= fun _ => Cursor.finish) .empty = .ok bytes c ∧
          m.read path .none (.ofBytes bytes) =
            .ok (Codec.extend p (Codec.normal (p.prune keep) v)) c' ∧ c'.pos = bytes.length) := by
  obtain ⟨root, hroot, hp, hlinked⟩ := h.linked
  obtain ⟨m', h'⟩ := h.prune keep
  have hevolving := evolving_of_context hroot hnames htags
  have hslots : ∀ q, Place.Within root q ∧ q.kind = .message → ∃ slots, q.slots = .ok slots :=
    fun q hq => hlinked.exists_slots hr hq.1 hq.2
  refine ⟨m', h', fun v hconforms hlengths => ?_, fun v hconforms hlengths => ?_⟩
  · have hv := Codec.sendable_of_conforms hevolving.regular ⟨hp, h.isMessage⟩ hconforms hlengths
    have hreads := hv.reads_as (Codec.evolution_narrow keep hevolving) ⟨⟨hp, h.isMessage⟩, rfl⟩
    obtain ⟨⟨c, hwrite⟩, c', hread, hpos⟩ := h.exchange h' hr hw hv hreads
    exact ⟨_, c, c', hwrite, hread, hpos⟩
  · have hv := Codec.sendable_of_conforms (hevolving.regular_prune keep hslots)
      ⟨p, ⟨hp, h.isMessage⟩, rfl⟩ hconforms hlengths
    have hreads := hv.reads_as (Codec.evolution_widen keep hevolving hslots) ⟨⟨hp, h.isMessage⟩, rfl⟩
    obtain ⟨⟨c, hwrite⟩, c', hread, hpos⟩ := h'.exchange h hr hw hv hreads
    exact ⟨_, c, c', hwrite, hread, hpos⟩

/-- Nodes keep all fields but the label, the marks and the data. -/
def keepsShape (message field : Value) : Bool :=
  message ≠ .str "Node" || field ∉ [Value.str "label", .str "marks", .str "data"]

/-- What is read of the tree by those who know nothing but the shape. -/
def treeShape : Value :=
  .dict [(.str "weight", .float .zero),
    (.str "children", .list [
      .dict [(.str "weight", .float .zero), (.str "children", .list []), (.str "kind", .int 0)],
      .dict [(.str "weight", .float .zero), (.str "children", .list []), (.str "kind", .int 0)]]),
    (.str "kind", .int 1)]

def smallShape : Value :=
  .dict [(.str "children", .list [.dict [(.str "kind", .int 1)]]), (.str "weight", .none)]

/-- What is read of that shape by those who know all fields. -/
def smallTree : Value :=
  .dict [(.str "label", .str "leaf"), (.str "weight", .float .zero), (.str "marks", .list []),
    (.str "children", .list [
      .dict [(.str "label", .str "leaf"), (.str "weight", .float .zero), (.str "marks", .list []),
        (.str "children", .list []), (.str "kind", .int 1)]]),
    (.str "kind", .int 0)]

/-- Whether the tree and the shape are well-typed at a place, and read as they should be. -/
def exchangesShapes (p : Place) : Bool :=
  Codec.conforms p tree && Codec.lengthsFit p tree &&
    Codec.restrict (p.prune keepsShape) (Codec.normal p tree) = treeShape &&
    Codec.conforms (p.prune keepsShape) smallShape && Codec.lengthsFit (p.prune keepsShape) smallShape &&
    Codec.extend p (Codec.normal (p.prune keepsShape) smallShape) = smallTree

/-- A tree is written with all fields and read with some of them. -/
theorem trees_evolve : ∃ m m', Module.ofSchema treeSchema {} = .ok m ∧
    Module.ofSchema (treeSchema.prune keepsShape) {} = .ok m' ∧
    (∃ bytes c c', (m.write "Node" tree >>= fun _ => Cursor.finish) .empty = .ok bytes c ∧
      m'.read "Node" .none (.ofBytes bytes) = .ok treeShape c' ∧ c'.pos = bytes.length) ∧
    (∃ bytes c c', (m'.write "Node" smallShape >>= fun _ => Cursor.finish) .empty = .ok bytes c ∧
      m.read "Node" .none (.ofBytes bytes) = .ok smallTree c' ∧ c'.pos = bytes.length) := by
  obtain ⟨m, p, h, hcheck⟩ : ∃ m p, Compiled treeSchema {} m p "Node" ∧ exchangesShapes p = true :=
    exists_compiled _ (by decide +kernel) (by decide +kernel) (by decide +kernel)
  simp only [exchangesShapes, Bool.and_eq_true, decide_eq_true_eq] at hcheck
  obtain ⟨⟨⟨⟨⟨hconforms, hlengths⟩, hshape⟩, hconforms'⟩, hlengths'⟩, htree⟩ := hcheck
  obtain ⟨m', h', hnarrow, hwiden⟩ :=
    schemas_evolve h rfl rfl (by decide +kernel) (by decide +kernel) keepsShape
  have hfirst := hnarrow tree hconforms hlengths
  have hsecond := hwiden smallShape hconforms' hlengths'
  rw [hshape] at hfirst
  rw [htree] at hsecond
  exact ⟨m, m', h.loaded, h'.loaded, hfirst, hsecond⟩

end ProtoScribe.Code
