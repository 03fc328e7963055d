import ProtoScribe.Proofs.Codec.Depth
import ProtoScribe.Proofs.Cursor.Locality

/-!
# Messages in a row

Reading by slots sees only what it reads (`follows_readField`), so the fields of two messages in a row
are those of the first and then those of the second.

What fields do to a message that is there is `Merges`: a slot that no field belongs to keeps what it
holds, and the list of a repeated slot is extended. `Cursor.recorded` keeps the tags of the fields that
were read, to say which ones belong.
-/

namespace ProtoScribe

open Run

/-! ## Locality -/

namespace Codec

variable {offset : Nat} {tail : List UInt8} {c c' : Cursor}

section

variable {embedded : Place → Value → Run Value}
  (hemb : ∀ q stop d d', 0 < stop → Cursor.Shifted offset tail d d' →
    Follows offset tail (embedded q (.int (stop : Nat))) (embedded q (.int (stop + offset : Nat))) d d')

include hemb

/-- An embedded message is told its end as a position, which shifts with everything else. -/
theorem follows_readValue (h : Cursor.Shifted offset tail c c') (t : Target) :
    Follows offset tail (readValue embedded t) (readValue embedded t) c c' := by
  cases t with
  | scalar t => exact Cursor.follows_readAs h _ _
  | enumeration q => exact Cursor.follows_readAs h _ _
  | message q =>
    refine (Cursor.follows_readVarint h).bind fun size d d' hsize _ hd => follows_get ?_
    -- the length was read, so the stop is behind the start of the buffer
    have hpos := ((Cursor.readVarint_ends c).of_ok hsize).2.2.1
    show Follows offset tail (embedded q (.int (size + d.pos : Nat))) (embedded q (.int (size + d'.pos : Nat)))
      d d'
    rw [hd.pos_eq, ← Nat.add_assoc]
    exact hemb q (size + d.pos) d d' (by omega) hd

/-- Where a value is stored depends on the wire type of its key, too. -/
theorem follows_store (h : Cursor.Shifted offset tail c c') (hw : c'.wireType = c.wireType) (s : Slot)
    (message : List (Value × Value)) :
    Follows offset tail (store embedded s message) (store embedded s message) c c' := by
  have hvalue := follows_readValue hemb h s.target
  unfold store
  split
  · show Follows offset tail (Cursor.lift (entry message s.field.name) >>= _)
      (Cursor.lift (entry message s.field.name) >>= _) c c'
    -- looking up the list leaves the cursors alone, and so their wire type
    cases entry message s.field.name with
    | error e => exact follows_throw h e
    | ok old =>
      rw [lift_ok_bind]
      split
      · exact (Cursor.follows_readPacked h hw _ _ _).bind fun _ _ _ _ _ hd => follows_pure hd _
      · exact ((Cursor.follows_readPacked h hw _ _ _).map _).bind fun _ _ _ _ _ hd => follows_pure hd _
      · exact hvalue.bind fun _ _ _ _ _ hd => follows_pure hd _
      · exact follows_throw h _
  · exact hvalue.bind fun _ _ _ _ _ hd => follows_pure hd _

/-- A field is read alike wherever it stands. -/
theorem follows_readField (h : Cursor.Shifted offset tail c c') (hw : c'.wireType = c.wireType)
    (slots : List Slot) (tag : Nat) (message : List (Value × Value)) :
    Follows offset tail (readField embedded slots tag message) (readField embedded slots tag message) c c' := by
  unfold readField
  split
  · next s _ => exact follows_store hemb h hw s message
  · exact follows_pure h message

end

/-- So is a message, at every depth. The induction is on the depth. -/
theorem follows_readNested (depth : Nat) (p : Place) {stop : Nat} (hstop : 0 < stop)
    (h : Cursor.Shifted offset tail c c') :
    Follows offset tail (readNested depth p (.int stop)) (readNested depth p (.int (stop + offset : Nat)))
      c c' := by
  induction depth generalizing p stop c c' with
  | zero => exact follows_throw h .tooDeep
  | succ depth ih =>
    refine (follows_lift h p.slots).bind fun slots d d' _ _ hd => ?_
    have hfield : ∀ tag message d d', Cursor.Shifted offset tail d d' → d'.wireType = d.wireType →
        Follows offset tail (readField (readNested depth) slots tag message)
          (readField (readNested depth) slots tag message) d d' :=
      fun tag message d d' hd hw => follows_readField (fun q _ _ _ hs hd => ih q hs hd) hd hw slots tag message
    exact (Cursor.follows_readFields hfield hstop hd _).bind fun _ _ _ _ _ hd => follows_pure hd _

/-- With more bytes left there is more depth, and that makes no difference. -/
theorem follows_read (p : Place) {stop : Nat} (hstop : 0 < stop) (h : Cursor.Shifted offset tail c c') :
    Follows offset tail (read p (.int stop)) (read p (.int (stop + offset : Nat))) c c' := by
  have hlength : c.rest.length ≤ c'.rest.length := by
    rw [h.rest_eq, List.length_append]
    exact Nat.le_add_right _ _
  have hnested := follows_readNested (c'.rest.length + 1) p hstop h
  have hdepth : read p (.int stop) c = readNested (c'.rest.length + 1) p (.int stop) c :=
    readNested_depth p _ (Nat.le_refl _) (Nat.lt_succ_self _) (Nat.lt_succ_of_le hlength)
  exact Ends.congr hnested hdepth

/-- Reading the fields of two messages in a row is reading those of the second into the first. -/
theorem readFields_merge (slots : List Slot) {message message' : List (Value × Value)}
    {first : List UInt8} {d : Cursor}
    (hread : Cursor.readFields (readField read slots) .none message (.ofBytes first) = .ok message' d)
    (second : List UInt8) :
    Follows first.length [] (Cursor.readFields (readField read slots) .none message')
      (Cursor.readFields (readField read slots) .none message) (.ofBytes second)
      (.ofBytes (first ++ second)) := by
  refine Cursor.readFields_append (reads_readField reads_read slots) ?_ hread second
  intro offset tail tag message d d' hd hw
  exact follows_readField (fun q stop d d' hs hd => follows_read q hs hd) hd hw slots tag message

end Codec

/-! ## Merging -/

def Cursor.recorded {σ : Type} (onField : Nat → σ → Run σ) (tag : Nat) (acc : σ × List Nat) :
    Run (σ × List Nat) :=
  (·, acc.2 ++ [tag]) <$> onField tag acc.1

namespace Codec

/-- What fields with some tags have made of a message. -/
structure Merges (slots : List Slot) (before : List (Value × Value)) (tags : List Nat)
    (after : List (Value × Value)) : Prop where
  keys : Keyed slots after
  kept : ∀ s ∈ slots, (∀ tag ∈ tags, s.field.tag ≠ (tag : Int)) →
    Value.find? after s.field.name = Value.find? before s.field.name
  extended : ∀ s ∈ slots, s.field.repeated = true →
    ∀ old, Value.find? before s.field.name = some (.list old) →
      ∃ more, Value.find? after s.field.name = some (.list (old ++ more))

section

variable {slots : List Slot} {before message message' : List (Value × Value)} {tags : List Nat} {s : Slot}
  {P : Value → Prop}

/-- A message is its own merge with no fields. -/
theorem merges_refl (h : Keyed slots message) : Merges slots message [] message where
  keys := h
  kept := fun _ _ _ => rfl
  extended := fun _ _ _ old hold => ⟨[], by rw [hold, List.append_nil]⟩

/-- A field that is skipped leaves the merge as it is. -/
theorem Merges.skipped (h : Merges slots before tags message) (tag : Nat) :
    Merges slots before (tags ++ [tag]) message where
  keys := h.keys
  kept := fun s hs htags => h.kept s hs fun tag htag => htags tag (by simp [htag])
  extended := h.extended

/-- One more field. It belongs to one slot, and leaves the others alone. -/
theorem Merges.stored (h : Merges slots before tags message) (hapart : Slot.Apart slots)
    (hs : s ∈ slots) {tag : Nat} (htag : s.field.tag = tag)
    (hstored : Stored P s message message') : Merges slots before (tags ++ [tag]) message' := by
  have hother : ∀ t ∈ slots, t ≠ s → Value.find? message' t.field.name = Value.find? message t.field.name := by
    intro t ht hne
    have hkey : s.field.name.sameKey t.field.name = false := by
      rw [← Bool.not_eq_true]
      intro hkey
      exact hne (hapart.eq_of_sameKey hs ht hkey).symm
    cases hstored with
    | same => rfl
    | single => exact h.keys.find?_put hapart hs hkey _
    | extended => exact h.keys.find?_put hapart hs hkey _
  refine ⟨?_, ?_, ?_⟩
  · cases hstored with
    | same => exact h.keys
    | single => exact h.keys.put hs _
    | extended => exact h.keys.put hs _
  · intro t ht htags
    have hne : t ≠ s := by
      rintro rfl
      exact htags tag (by simp) htag
    rw [hother t ht hne]
    exact (h.skipped tag).kept t ht htags
  · intro t ht hrep old hold
    obtain ⟨more, hmore⟩ := h.extended t ht hrep old hold
    by_cases hts : t = s
    · subst hts
      cases hstored with
      | same => exact ⟨more, hmore⟩
      | single hsingle =>
        rw [hrep] at hsingle
        cases hsingle
      | extended _ hnow _ =>
        rw [hmore] at hnow
        cases hnow
        exact ⟨_, by rw [Value.find?_put_self, List.append_assoc]⟩
    · exact ⟨more, (hother t ht hts).trans hmore⟩

end

/-- Handing on one field merges it. -/
theorem recorded_ends {slots : List Slot} (hapart : Slot.Apart slots) {before : List (Value × Value)}
    (tag : Nat) {acc : List (Value × Value) × List Nat} (h : Merges slots before acc.2 acc.1) (c : Cursor) :
    Ends (Cursor.recorded (readField read slots) tag acc) c
      (fun acc' c' => Merges slots before acc'.2 acc'.1 ∧ c.Moves c') (fun _ c' => True ∧ c.Moves c') := by
  refine .map ?_
  unfold readField
  split
  · next s hfind =>
    have hs := List.mem_of_find?_eq_some hfind
    have htag : s.field.tag = tag := by simpa using List.find?_some hfind
    have hstore : Ends (store read s acc.1) c
        (fun message c' => Stored (s.Got fun _ _ => True) s acc.1 message ∧ c.Moves c')
        (fun _ c' => True ∧ c.Moves c') :=
      store_ends (fun _ _ => trivial) (fun q stop d _ _ => (reads_read q (.int stop)).yields d)
        (fun _ => .inr ⟨trivial, trivial⟩) (Nat.le_refl _)
    exact hstore.imp (fun message c' ⟨hstored, hm⟩ => ⟨h.stored hapart hs htag hstored, hm⟩)
      (fun _ _ he => he)
  · exact ends_pure ⟨h.skipped tag, .refl c⟩

/-- Reading fields into a message merges them. -/
theorem readFields_merges {slots : List Slot} (hapart : Slot.Apart slots)
    {before after : List (Value × Value)} (hbefore : Keyed slots before) {stop : Value} {c c' : Cursor}
    (hread : Cursor.readFields (readField read slots) stop before c = .ok after c') :
    ∃ tags, Cursor.readFields (Cursor.recorded (readField read slots)) stop (before, []) c =
        .ok (after, tags) c' ∧ Merges slots before tags after := by
  -- the run that keeps the tags is the same run
  have hforget : ∀ tag (acc : List (Value × Value) × List Nat), readField read slots tag acc.1 =
      Prod.fst <$> Cursor.recorded (readField read slots) tag acc := by
    intro tag acc
    rw [Cursor.recorded, Functor.map_map]
    exact (id_map _).symm
  have hsame := Cursor.readFields_map hforget stop (before, [])
  have hends : Ends (Cursor.readFields (Cursor.recorded (readField read slots)) stop (before, [])) c
      (fun acc c' => Merges slots before acc.2 acc.1 ∧ c.Moves c' ∧
        ∀ limit, Cursor.stopAt stop c = .ok limit → limit ≤ c'.pos)
      (fun _ c' => True ∧ c.Moves c') :=
    Cursor.readFields_ends (fun tag _ d _ h => recorded_ends hapart tag h d) (fun _ _ => trivial)
      (Nat.le_refl _) (merges_refl hbefore) (fun _ _ => trivial)
  rw [hsame, map_apply] at hread
  split at hread
  · next acc d hrecorded =>
    obtain ⟨after', tags⟩ := acc
    cases hread
    exact ⟨tags, hrecorded, (hends.of_ok hrecorded).1⟩
  · cases hread

end Codec

end ProtoScribe
