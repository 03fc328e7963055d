import ProtoScribe.Codec.Write
import ProtoScribe.Proofs.Codec.Reading
import ProtoScribe.Proofs.Cursor.Faults

/-!
# The bound on depth does not matter

Reading and writing by slots recurse with a bound on how deeply messages nest. Reading starts with a
bound above the number of bytes left, and every embedded message takes a byte; writing starts with a
bound above the depth of the value, and every embedded value is less deep. So the bounds are never
used up (`read_shallow`, `write_shallow`), any larger bound gives the same run, and `read` and
`write` satisfy the equations that one would write down without a bound (`read_eq`, `write_eq`).
-/

namespace ProtoScribe

open Run

/-! ## Loops over fields with bodies that agree -/

namespace Cursor

variable {σ : Type} {f g : Nat → σ → Run σ} {n : Nat}

/-- Bodies that agree wherever fewer bytes are left make the same of one field. -/
theorem readNext_congr (h : ∀ tag acc c, c.rest.length < n → f tag acc c = g tag acc c) {acc : σ}
    {c : Cursor} (hn : c.rest.length ≤ n) : readNext f acc c = readNext g acc c := by
  unfold readNext
  rw [bind_apply, bind_apply]
  cases hkey : readVarint c with
  | error e c₁ => rfl
  | ok key c₁ =>
    obtain ⟨-, -, -, hrest⟩ := (readVarint_ends c).of_ok hkey
    have hbody := h (key / 8) acc { c₁ with wireType := .int (key % 8 : Nat) }
      (Nat.lt_of_lt_of_le hrest hn)
    simp only [bind_apply, get_apply, setWireType, hbody]

/-- Handlers that agree on fewer bytes than are left can be swapped, since the key takes one. -/
theorem readFieldsUntil_congr (h : ∀ tag acc c, c.rest.length < n → f tag acc c = g tag acc c)
    (hf : ∀ tag acc, Reads (fun _ => True) (f tag acc)) (stop limit : Nat) {acc : σ} {c : Cursor}
    (hn : c.rest.length ≤ n) :
    readFieldsUntil f stop limit acc c = readFieldsUntil g stop limit acc c := by
  induction limit generalizing acc c with
  | zero => rfl
  | succ limit ih =>
    unfold readFieldsUntil
    rw [bind_apply, bind_apply]
    simp only [get_apply]
    split
    · have hnext : readNext f acc c = readNext g acc c := readNext_congr h hn
      rw [bind_apply, bind_apply, ← hnext]
      cases hacc : readNext f acc c with
      | error e c₁ => rfl
      | ok acc' c₁ =>
        have hm : c.Moves c₁ := ((advances_readNext hf acc).reads c).of_ok hacc
        exact ih (Nat.le_trans hm.rest_le hn)
    · rfl

theorem readFields_congr (h : ∀ tag acc c, c.rest.length < n → f tag acc c = g tag acc c)
    (hf : ∀ tag acc, Reads (fun _ => True) (f tag acc)) (stop : Value) (acc : σ) {c : Cursor}
    (hn : c.rest.length ≤ n) : readFields f stop acc c = readFields g stop acc c := by
  unfold readFields readFieldsTo
  simp only [bind_apply, get_apply]
  cases stopAt stop c with
  | error e => rfl
  | ok limit => exact readFieldsUntil_congr h hf _ _ hn

end Cursor

/-! ## Reading -/

namespace Codec

variable {emb emb' : Place → Value → Run Value} {n : Nat}

theorem readValue_congr (h : ∀ q stop c, c.rest.length < n → emb q stop c = emb' q stop c) (t : Target)
    {c : Cursor} (hn : c.rest.length ≤ n) : readValue emb t c = readValue emb' t c := by
  cases t with
  | scalar t => rfl
  | enumeration q => rfl
  | message q =>
    simp only [readValue]
    rw [bind_apply, bind_apply]
    cases hsize : Cursor.readVarint c with
    | error e c₁ => rfl
    | ok size c₁ =>
      obtain ⟨-, -, -, hrest⟩ := (Cursor.readVarint_ends c).of_ok hsize
      exact h q _ c₁ (Nat.lt_of_lt_of_le hrest hn)

/-- Only the reader for embedded messages is swapped, and it starts behind a key. -/
theorem store_congr (h : ∀ q stop c, c.rest.length < n → emb q stop c = emb' q stop c) (s : Slot)
    (message : List (Value × Value)) {c : Cursor} (hn : c.rest.length ≤ n) :
    store emb s message c = store emb' s message c := by
  have hvalue := readValue_congr h s.target hn
  unfold store
  split
  · rw [bind_apply, bind_apply]
    cases entry message s.field.name with
    | error e => rfl
    | ok old =>
      simp only [lift_ok_apply]
      cases s.runType? with
      | some t => cases old <;> rfl
      | none =>
        cases old with
        | list items =>
          simp only [bind_apply, hvalue]
        | none | bool _ | int _ | float _ | str _ | bytes _ | dict _ => rfl
  · rw [bind_apply, bind_apply, hvalue]

/-- The same for one field, whichever slot it goes to. -/
theorem readField_congr (h : ∀ q stop c, c.rest.length < n → emb q stop c = emb' q stop c)
    (slots : List Slot) (tag : Nat) (message : List (Value × Value)) {c : Cursor}
    (hn : c.rest.length ≤ n) : readField emb slots tag message c = readField emb' slots tag message c := by
  unfold readField
  cases slots.find? fun s => s.field.tag = (tag : Int) with
  | some s => exact store_congr h s message hn
  | none => rfl

theorem reads_readField (h : ∀ q stop, Reads (fun _ => True) (emb q stop)) (slots : List Slot) (tag : Nat)
    (message : List (Value × Value)) : Reads (fun _ => True) (readField emb slots tag message) := by
  unfold readField
  split
  · next s _ =>
    intro c
    exact (store_ends (fun _ _ => trivial) (fun q stop c _ _ => (h q (.int stop)).yields c)
      (fun _ => .inr ⟨trivial, trivial⟩) (Nat.le_refl _)).imp (fun _ _ hs => hs.2) (fun _ _ he => he)
  · exact .pure _

/-- Readers for messages only read, however deep the messages nest. -/
theorem reads_readNested (depth : Nat) (p : Place) (stop : Value) :
    Reads (fun _ => True) (readNested depth p stop) := by
  induction depth generalizing p stop with
  | zero => exact .throw trivial
  | succ depth ih =>
    refine (Reads.lift fun _ _ => trivial).bind fun slots => .bind ?_ fun _ => .pure _
    exact Cursor.reads_readFields (reads_readField ih slots) stop (initial slots)

/-- Reading looks into embedded messages only where fewer bytes are left. -/
theorem readNested_congr {d d' : Nat}
    (h : ∀ q stop c, c.rest.length < n → readNested d q stop c = readNested d' q stop c) (p : Place)
    (stop : Value) {c : Cursor} (hn : c.rest.length ≤ n) :
    readNested (d + 1) p stop c = readNested (d' + 1) p stop c := by
  unfold readNested readWith
  rw [bind_apply, bind_apply]
  cases p.slots with
  | error e => rfl
  | ok slots =>
    have hfields := Cursor.readFields_congr
      (fun tag message c hc => readField_congr h slots tag message (Nat.le_of_lt hc))
      (reads_readField (reads_readNested d) slots) stop (initial slots) hn
    simp only [lift_ok_apply]
    rw [bind_apply, bind_apply, hfields]

/-- Any two depths above the number of bytes left give the same run. -/
theorem readNested_depth {d d' : Nat} (p : Place) (stop : Value) {c : Cursor}
    (hn : c.rest.length ≤ n) (hd : n < d) (hd' : n < d') :
    readNested d p stop c = readNested d' p stop c := by
  -- on the bytes left and not on a depth: both depths go down with them
  induction n generalizing d d' p stop c with
  | zero =>
    obtain ⟨d, rfl⟩ := Nat.exists_eq_succ_of_ne_zero (by omega : d ≠ 0)
    obtain ⟨d', rfl⟩ := Nat.exists_eq_succ_of_ne_zero (by omega : d' ≠ 0)
    exact readNested_congr (fun q stop c hc => by omega) p stop hn
  | succ n ih =>
    obtain ⟨d, rfl⟩ := Nat.exists_eq_succ_of_ne_zero (by omega : d ≠ 0)
    obtain ⟨d', rfl⟩ := Nat.exists_eq_succ_of_ne_zero (by omega : d' ≠ 0)
    refine readNested_congr (fun q stop c hc => ?_) p stop hn
    exact ih q stop (by omega) (by omega) (by omega)

theorem read_apply (p : Place) (stop : Value) (c : Cursor) :
    read p stop c = readNested (c.rest.length + 1) p stop c := rfl

/-- Reading a message only reads. -/
theorem reads_read (p : Place) (stop : Value) : Reads (fun _ => True) (read p stop) :=
  fun c => (reads_readNested _ p stop c).congr (read_apply p stop c)

/-- Reading without a bound: embedded messages are read in the same way. -/
theorem read_eq (p : Place) (stop : Value) :
    read p stop = do
      let slots ← Cursor.lift p.slots
      return .dict (← Cursor.readFields (readField read slots) stop (initial slots)) := by
  funext c
  rw [read_apply, readNested, readWith, bind_apply, bind_apply]
  cases p.slots with
  | error e => rfl
  | ok slots =>
    -- `read` starts every embedded message with a new bound; inside this one it makes no difference
    have hemb : ∀ q stop c', c'.rest.length < c.rest.length →
        readNested c.rest.length q stop c' = read q stop c' := fun q stop c' hc =>
      readNested_depth q stop (Nat.le_refl _) hc (Nat.lt_succ_self _)
    have hfields := Cursor.readFields_congr
      (fun tag message c hc => readField_congr hemb slots tag message (Nat.le_of_lt hc))
      (reads_readField (reads_readNested _) slots) stop (initial slots) (Nat.le_refl _)
    simp only [lift_ok_apply]
    rw [bind_apply, bind_apply, hfields]

theorem target_shallow {p : Place} {f : Field} {e : Fault} (h : p.target f = .error e) :
    e.IsShallow := by
  rcases Outcome.bind_error h with htext | ⟨type, -, h⟩
  · exact Value.toText_shallow htext
  · rintro rfl
    split at h
    · split at h <;> cases h
    · split at h <;> cases h

/-- A scope that does not resolve is refused for that reason, and not for its depth. -/
theorem slots_shallow {p : Place} {e : Fault} (h : p.slots = .error e) : e.IsShallow := by
  obtain ⟨f, -, hf⟩ := Outcome.mapM_error h
  exact target_shallow (Outcome.map_error hf)

/-- Reading never runs out of depth. -/
theorem read_shallow (p : Place) (stop : Value) : Fails Fault.IsShallow (read p stop) := by
  intro c
  have policy : Policy (fun _ => True) Fault.IsShallow := {
    wire := by rintro _ (he | he) rfl <;> cases he
    slots := fun p e _ he => slots_shallow he
    embedded := fun _ _ _ _ _ _ _ _ => trivial
    apart := fun _ _ _ _ => .inr ⟨by rintro ⟨⟩, by rintro ⟨⟩⟩ }
  have hstop : ∀ e, Cursor.stopAt stop c = .error e → e.IsShallow := by
    intro e he
    rw [Cursor.stopAt_error he]
    rintro ⟨⟩
  exact ((readNested_ends policy _ trivial (Nat.lt_succ_self _) hstop).imp (fun _ _ _ => trivial)
    (fun _ _ he => he.1)).congr (read_apply p stop c)

/-! ## Writing -/

variable {emit emit' : Place → Value → Run Unit}

theorem writeValue_congr {v : Value} (h : ∀ q, emit q v = emit' q v) (s : Slot) :
    writeValue emit s v = writeValue emit' s v := by
  unfold writeValue
  simp only [h]

/-- Items are no deeper than the list that holds them. -/
theorem writeItems_congr {v : Value} (h : ∀ q w, w.depth ≤ v.depth → emit q w = emit' q w) (s : Slot) :
    writeItems emit s v = writeItems emit' s v := by
  unfold writeItems
  split
  · rfl
  · split
    · next items hitems =>
      have hdepth : ∀ w ∈ items, w.depth ≤ v.depth := fun w hw => Value.depth_le_of_items? hitems hw
      clear hitems
      induction items with
      | nil => rfl
      | cons w rest ih =>
        have hw := writeValue_congr (fun q => h q w (hdepth w (by simp))) s
        simp only [List.forM, hw, ih fun u hu => hdepth u (by simp [hu])]
    · rfl

/-- The entry of a message is less deep than the message. -/
theorem depth_lt_of_entryOrNone {message v : Value} {s : Slot} (h : entryOrNone message s = .ok v) :
    v.depth < message.depth := by
  unfold entryOrNone at h
  split at h
  · next entries =>
    cases h
    cases hfind : Value.find? entries s.field.name with
    | none => simp [Value.depth]
    | some v => exact Value.depth_lt_of_find? hfind
  · cases h

/-- Writing looks only at embedded values, which are less deep than the message. -/
theorem writeSlot_congr {message : Value}
    (h : ∀ q w, w.depth < message.depth → emit q w = emit' q w) (s : Slot) :
    writeSlot emit message s = writeSlot emit' message s := by
  unfold writeSlot
  cases hv : entryOrNone message s with
  | error e => rfl
  | ok v =>
    have hdepth := depth_lt_of_entryOrNone hv
    have hitems := writeItems_congr (fun q w hw => h q w (Nat.lt_of_le_of_lt hw hdepth)) s
    have hvalue := writeValue_congr (fun q => h q v hdepth) s
    rw [lift_ok_bind, lift_ok_bind, hitems, hvalue]

/-- What a slot holds is less deep than the message, so writers that agree there can be swapped. -/
theorem forM_writeSlot_congr {message : Value}
    (h : ∀ q w, w.depth < message.depth → emit q w = emit' q w) (slots : List Slot) :
    slots.forM (writeSlot emit message) = slots.forM (writeSlot emit' message) := by
  rw [funext (writeSlot_congr h)]

/-- Any two depths above that of the value give the same run. -/
theorem writeNested_depth {d d' : Nat} (p : Place) (v : Value) (hd : v.depth < d) (hd' : v.depth < d') :
    writeNested d p v = writeNested d' p v := by
  induction d generalizing d' p v with
  | zero => omega
  | succ d ih =>
    obtain ⟨d', rfl⟩ := Nat.exists_eq_succ_of_ne_zero (by omega : d' ≠ 0)
    have hemb : ∀ q w, w.depth < v.depth → writeNested d q w = writeNested d' q w :=
      fun q w hw => ih q w (by omega) (by omega)
    simp only [writeNested, forM_writeSlot_congr hemb]

/-- Writing without a bound: embedded messages are written in the same way. -/
theorem write_eq (p : Place) (v : Value) :
    write p v = (Cursor.lift p.slots >>= fun slots => slots.forM (writeSlot write v)) := by
  have hemb : ∀ q w, w.depth < v.depth → writeNested (v.depth + 1) q w = write q w :=
    fun q w hw => writeNested_depth q w (by omega) (by omega)
  rw [write, writeNested]
  simp only [forM_writeSlot_congr hemb]

theorem fails_writeValue {v : Value} (h : ∀ q, Fails Fault.IsShallow (emit q v)) (s : Slot) :
    Fails Fault.IsShallow (writeValue emit s v) := by
  unfold writeValue
  split
  · exact Cursor.fails_writeMessage _ (h _)
  · exact Cursor.fails_writeField _ _ _
  · exact Cursor.fails_writeField _ _ _

/-- What a slot holds is less deep than the message, so only writers for such values matter. -/
theorem fails_writeSlot {message : Value}
    (h : ∀ q w, w.depth < message.depth → Fails Fault.IsShallow (emit q w)) (s : Slot) :
    Fails Fault.IsShallow (writeSlot emit message s) := by
  intro c
  refine .bind (ends_lift (fun v hv => ?_) (fun e he => ?_))
  · have hdepth := depth_lt_of_entryOrNone hv
    have hvalue : ∀ w, w.depth ≤ v.depth → Fails Fault.IsShallow (writeValue emit s w) :=
      fun w hw => fails_writeValue (fun q => h q w (by omega)) s
    -- what follows is the same at every cursor, so the rules for `Fails` apply again
    revert c
    show Fails Fault.IsShallow _
    split
    · split
      · unfold writeItems
        split
        · exact Cursor.fails_writePacked _ _ _
        · split
          · next items hitems => exact .forM fun w hw => hvalue w (Value.depth_le_of_items? hitems hw)
          · exact .throw (by rintro ⟨⟩)
      · exact .pure _
    · split
      · exact hvalue v (Nat.le_refl _)
      · exact .pure _
  · rintro rfl
    unfold entryOrNone at he
    split at he <;> cases he

/-- Writing never runs out of depth. -/
theorem write_shallow (p : Place) (v : Value) : Fails Fault.IsShallow (write p v) := by
  have hnested : ∀ d p v, v.depth < d → Fails Fault.IsShallow (writeNested d p v) := by
    intro d
    induction d with
    | zero => intro p v hd; omega
    | succ d ih =>
      intro p v hd
      refine (Fails.lift fun e he => slots_shallow he).bind fun slots => .forM fun s _ => ?_
      exact fails_writeSlot (fun q w hw => ih q w (by omega)) s
  exact hnested _ p v (by omega)

end Codec

end ProtoScribe
