import ProtoScribe.Cursor.Read
import ProtoScribe.Proofs.Run
import ProtoScribe.Proofs.Wire.Varint

/-!
# Reading moves forward

A reader leaves the buffer and its readable length alone, never moves the position back, and moves it
past the readable length only if it was there already (`Cursor.Moves`). This holds also when it fails,
and what it fails with is a fault of the wire format or of text (`Fault.IsWire`).

`Run.Reads` packs this up for one operation; it is closed under sequencing, so the facts about packed
runs and skipping follow from those about single values. `Run.Yields` also says what is read. The loop
over fields has a rule of its own (`readFieldsUntil_ends`): its body is only ever started with fewer
bytes left than the loop had.
-/

namespace ProtoScribe

/-- A fault that malformed bytes cause: bad wire data, or bytes that are not text. -/
def Fault.IsWire (e : Fault) : Prop := e.kind = .decode ∨ e.kind = .invalidText

namespace Cursor

/-! ## Movement -/

/-- How a reader moves a cursor. -/
structure Moves (c c' : Cursor) : Prop where
  buf_eq : c'.buf = c.buf
  length_eq : c'.length = c.length
  le : c.pos ≤ c'.pos
  within : c'.pos ≤ max c.pos c.length

@[refl]
theorem Moves.refl (c : Cursor) : c.Moves c := ⟨rfl, rfl, Nat.le_refl _, by omega⟩

/-- Readers in a row move the cursor as one reader does. -/
theorem Moves.trans {c c₁ c₂ : Cursor} (h : c.Moves c₁) (h' : c₁.Moves c₂) : c.Moves c₂ where
  buf_eq := h'.buf_eq.trans h.buf_eq
  length_eq := h'.length_eq.trans h.length_eq
  le := Nat.le_trans h.le h'.le
  within := by
    have hlen := h.length_eq
    have h₁ := h.within
    have h₂ := h'.within
    omega

/-- What is left to read is bounded by the readable length and by the buffer. -/
theorem rest_length (c : Cursor) : c.rest.length = min c.length c.buf.length - c.pos := by
  simp [rest, List.length_drop, List.length_take]

/-- Reading leaves fewer bytes to read, never more. -/
theorem Moves.rest_le {c c' : Cursor} (h : c.Moves c') : c'.rest.length ≤ c.rest.length := by
  have hle := h.le
  rw [rest_length, rest_length, h.buf_eq, h.length_eq]
  omega

/-- Moving on within what is left. -/
theorem moves_add {c : Cursor} {k : Nat} (h : k ≤ c.rest.length) :
    c.Moves { c with pos := c.pos + k } where
  buf_eq := rfl
  length_eq := rfl
  le := Nat.le_add_right _ _
  within := by
    rw [rest_length] at h
    show c.pos + k ≤ max c.pos c.length
    omega

theorem moves_setWireType (c : Cursor) (t : Value) : c.Moves { c with wireType := t } :=
  ⟨rfl, rfl, Nat.le_refl _, by show c.pos ≤ _; omega⟩

/-- A key with wire type two announces a length-delimited field. -/
theorem isDelimited_of_wireType {c : Cursor} (h : c.wireType = .int 2) : c.isDelimited = true := by
  rw [isDelimited, h]
  decide

end Cursor

/-! ## Readers -/

/-- An operation that moves forward, whether it succeeds or fails with one of the faults of `bad`. -/
def Run.Reads {α : Type} (bad : Fault → Prop) (x : Run α) : Prop :=
  ∀ c, Run.Ends x c (fun _ c' => c.Moves c') (fun e c' => bad e ∧ c.Moves c')

/-- A reader that ends with a value of which `ok` holds when it succeeds. -/
def Run.Yields {α : Type} (ok : α → Prop) (bad : Fault → Prop) (x : Run α) : Prop :=
  ∀ c, Run.Ends x c (fun a c' => ok a ∧ c.Moves c') (fun e c' => bad e ∧ c.Moves c')

/-- A reader that takes at least one byte when it succeeds. -/
def Run.Advances {α : Type} (bad : Fault → Prop) (x : Run α) : Prop :=
  ∀ c, Run.Ends x c (fun _ c' => c.Moves c' ∧ c.pos < c'.pos) (fun e c' => bad e ∧ c.Moves c')

namespace Run

variable {α β : Type} {bad bad' : Fault → Prop}

theorem Reads.imp {x : Run α} (h : Reads bad x) (hbad : ∀ e, bad e → bad' e) : Reads bad' x :=
  fun c => (h c).imp (fun _ _ hm => hm) (fun e _ ⟨he, hm⟩ => ⟨hbad e he, hm⟩)

theorem Reads.pure (a : α) : Reads bad (Pure.pure a) := fun c => ends_pure (.refl c)

theorem Reads.throw {e : Fault} (h : bad e) : Reads bad (MonadExcept.throw e : Run α) :=
  fun c => ends_throw ⟨h, .refl c⟩

theorem Reads.get : Reads bad (MonadState.get : Run Cursor) := fun c => Cursor.Moves.refl c

theorem Reads.lift {r : Except Fault α} (h : ∀ e, r = .error e → bad e) : Reads bad (Cursor.lift r) :=
  fun c => ends_lift (fun _ _ => .refl c) (fun e he => ⟨h e he, .refl c⟩)

/-- The rule for sequencing, from which the facts about composed readers follow. -/
theorem Reads.bind {x : Run α} {f : α → Run β} (h : Reads bad x) (hf : ∀ a, Reads bad (f a)) :
    Reads bad (x >>= f) := by
  intro c
  refine .bind ((h c).imp (fun a c₁ hm => ?_) (fun _ _ he => he))
  exact (hf a c₁).imp (fun _ _ hm' => hm.trans hm') (fun _ _ ⟨he, hm'⟩ => ⟨he, hm.trans hm'⟩)

theorem Reads.map {x : Run α} (f : α → β) (h : Reads bad x) : Reads bad (f <$> x) :=
  fun c => .map ((h c).imp (fun _ _ hm => hm) (fun _ _ he => he))

theorem Yields.pure {ok : α → Prop} {a : α} (h : ok a) : Yields ok bad (Pure.pure a) :=
  fun c => ends_pure ⟨h, .refl c⟩

/-- What the first reader yields may be used for what the second one yields. -/
theorem Yields.bind {ok : α → Prop} {ok' : β → Prop} {x : Run α} {f : α → Run β} (h : Yields ok bad x)
    (hf : ∀ a, ok a → Yields ok' bad (f a)) : Yields ok' bad (x >>= f) := by
  intro c
  refine .bind ((h c).imp (fun a c₁ ⟨ha, hm⟩ => ?_) (fun _ _ he => he))
  exact (hf a ha c₁).imp (fun _ _ ⟨hb, hm'⟩ => ⟨hb, hm.trans hm'⟩)
    (fun _ _ ⟨he, hm'⟩ => ⟨he, hm.trans hm'⟩)

theorem Yields.reads {ok : α → Prop} {x : Run α} (h : Yields ok bad x) : Reads bad x :=
  fun c => (h c).imp (fun _ _ hm => hm.2) (fun _ _ he => he)

theorem Reads.yields {x : Run α} (h : Reads bad x) : Yields (fun _ => True) bad x :=
  fun c => (h c).imp (fun _ _ hm => ⟨trivial, hm⟩) (fun _ _ he => he)

theorem Advances.reads {x : Run α} (h : Advances bad x) : Reads bad x :=
  fun c => (h c).imp (fun _ _ hm => hm.1) (fun _ _ he => he)

/-- It is enough that the first of two readers takes a byte. -/
theorem Advances.bind {x : Run α} {f : α → Run β} (h : Advances bad x) (hf : ∀ a, Reads bad (f a)) :
    Advances bad (x >>= f) := by
  intro c
  refine .bind ((h c).imp (fun a c₁ ⟨hm, hlt⟩ => ?_) (fun _ _ he => he))
  exact (hf a c₁).imp (fun _ _ hm' => ⟨hm.trans hm', Nat.lt_of_lt_of_le hlt hm'.le⟩)
    (fun _ _ ⟨he, hm'⟩ => ⟨he, hm.trans hm'⟩)

end Run

namespace Cursor

open Run

/-! ## Single values -/

/-- The result of a scan of the bytes left, cut to 64 bits. -/
theorem readVarint_of_ok {c : Cursor} {n : Nat} (h : (Wire.scan 10 c.rest).value = .ok n) :
    readVarint c = .ok (n % 2 ^ 64) { c with pos := c.pos + (Wire.scan 10 c.rest).taken } := by
  simp only [readVarint, h]

/-- A varint that breaks off is consumed as far as it goes. -/
theorem readVarint_of_error {c : Cursor} {e : Fault} (h : (Wire.scan 10 c.rest).value = .error e) :
    readVarint c = .error e { c with pos := c.pos + (Wire.scan 10 c.rest).taken } := by
  simp only [readVarint, h]

/-- A varint takes at least one of the bytes that are left. -/
theorem readVarint_ends (c : Cursor) :
    Ends readVarint c
      (fun n c' => n < 2 ^ 64 ∧ c.Moves c' ∧ c.pos < c'.pos ∧ c'.rest.length < c.rest.length)
      (fun e c' => e.kind = .decode ∧ c.Moves c') := by
  have htaken := Wire.scan_taken_le 10 c.rest
  cases hv : (Wire.scan 10 c.rest).value with
  | error e => exact ends_of_error (readVarint_of_error hv) ⟨Wire.scan_error_kind hv, moves_add htaken⟩
  | ok n =>
    have hpos := Wire.scan_taken_pos hv
    refine ends_of_ok (readVarint_of_ok hv) ⟨Nat.mod_lt _ (by omega), moves_add htaken, ?_, ?_⟩
    · show c.pos < c.pos + (Wire.scan 10 c.rest).taken
      omega
    · rw [rest_length] at htaken
      simp only [rest_length]
      omega

theorem advances_readVarint : Advances Fault.IsWire readVarint := fun c =>
  (readVarint_ends c).imp (fun _ _ h => ⟨h.2.1, h.2.2.1⟩) (fun _ _ h => ⟨.inl h.1, h.2⟩)

theorem advances_readSigned : Advances Fault.IsWire readSigned :=
  advances_readVarint.bind fun _ => .pure _

/-- Moving to a position within the readable bytes, or failing where the cursor is. -/
theorem ends_bounded {α : Type} {stop : Nat} {value : α} {fault : Fault} {c : Cursor}
    (hle : c.pos ≤ stop) (hfault : fault.IsWire) :
    Ends (fun c => if c.length < stop then .error fault c else .ok value { c with pos := stop }) c
      (fun _ c' => c.Moves c' ∧ c'.pos = stop) (fun e c' => e.IsWire ∧ c.Moves c') := by
  by_cases h : c.length < stop
  · exact ends_of_error (if_pos h) ⟨hfault, .refl c⟩
  · refine ends_of_ok (if_neg h) ⟨⟨rfl, rfl, hle, ?_⟩, rfl⟩
    show stop ≤ max c.pos c.length
    omega

/-- A fixed-width value takes its bytes, or fails because they are not all there. -/
theorem advances_readFixed {size : Nat} (h : 0 < size) : Advances Fault.IsWire (readFixed size) := by
  intro c
  refine Ends.imp (ends_bounded (Nat.le_add_right c.pos size) (.inl rfl)) ?_ (fun _ _ he => he)
  rintro _ c' ⟨hm, hpos⟩
  exact ⟨hm, by omega⟩

/-- The length in front takes a byte already, also where nothing follows. -/
theorem advances_readBytes : Advances Fault.IsWire readBytes := by
  refine advances_readVarint.bind fun size c => ?_
  exact Ends.imp (ends_bounded (Nat.le_add_left c.pos size) (.inl rfl)) (fun _ _ h => h.1)
    (fun _ _ he => he)

/-- Bytes that are no text count as malformed wire data, too. -/
theorem decodeText_error {bytes : List UInt8} {e : Fault} (h : decodeText bytes = .error e) :
    e.IsWire := by
  unfold decodeText at h
  split at h
  · cases h
  · cases h
    exact .inr rfl

/-- Every coding takes at least one byte, which is what loops over values rely on. -/
theorem advances_read (coding : Wire.Coding) : Advances Fault.IsWire (read coding) := by
  cases coding with
  | varint | svarint | boolean => exact advances_readVarint.bind fun _ => .pure _
  | fixed32 | sfixed32 | float => exact (advances_readFixed (by decide)).bind fun _ => .pure _
  | fixed64 | sfixed64 | double => exact (advances_readFixed (by decide)).bind fun _ => .pure _
  | bytes => exact advances_readBytes.bind fun _ => .pure _
  | string =>
    refine advances_readBytes.bind fun _ => ?_
    exact (Reads.lift fun _ => decodeText_error).bind fun _ => .pure _

theorem advances_readAs (coding : Wire.Coding) (signed : Bool) :
    Advances Fault.IsWire (readAs coding signed) := by
  unfold readAs
  split
  · exact advances_readSigned.bind fun _ => .pure _
  · exact advances_read coding

/-! ## Packed runs -/

/-- The values that a packed field adds to a list: those of a run, or a single one. -/
def packedValues (coding : Wire.Coding) (signed : Bool) : Run (List Value) := do
  if !(← get).isDelimited then return [← readAs coding signed]
  else
    let size ← readVarint
    readUntil (readAs coding signed) (size + (← get).pos) size

/-- Extending a list is reading the values and appending them. -/
theorem readPacked_list (coding : Wire.Coding) (signed : Bool) (items : List Value) :
    readPacked coding signed (.list items) =
      (fun vs => .list (items ++ vs)) <$> packedValues coding signed := by
  unfold readPacked packedValues
  rw [map_bind]
  refine bind_congr fun c => ?_
  split
  · simp only [extendList, map_bind, map_pure, bind_assoc, pure_bind]
  · rw [map_bind]
    refine bind_congr fun size => ?_
    rw [map_bind]
    refine bind_congr fun c' => ?_
    split
    · next h => simp [h, readUntil]
    · simp only [extendList, map_eq_pure_bind]

/-- A run has what each of its values has. -/
theorem yields_readUntil {ok : Value → Prop} {element : Run Value} (h : Yields ok Fault.IsWire element)
    (stop limit : Nat) :
    Yields (fun vs => ∀ v ∈ vs, ok v) Fault.IsWire (readUntil element stop limit) := by
  induction limit with
  | zero => exact .pure (by simp)
  | succ limit ih =>
    refine Reads.get.yields.bind fun c _ => ?_
    split
    · refine h.bind fun v hv => ih.bind fun vs hvs => .pure ?_
      simpa using ⟨hv, hvs⟩
    · exact .pure (by simp)

theorem reads_readUntil {element : Run Value} (h : Reads Fault.IsWire element) (stop limit : Nat) :
    Reads Fault.IsWire (readUntil element stop limit) :=
  (yields_readUntil h.yields stop limit).reads

/-- What holds of a single value holds of all values of a run. -/
theorem yields_packedValues {ok : Value → Prop} {coding : Wire.Coding} {signed : Bool}
    (h : Yields ok Fault.IsWire (readAs coding signed)) :
    Yields (fun vs => ∀ v ∈ vs, ok v) Fault.IsWire (packedValues coding signed) := by
  refine Reads.get.yields.bind fun c _ => ?_
  split
  · exact h.bind fun v hv => .pure (by simpa using hv)
  · refine advances_readVarint.reads.yields.bind fun size _ => Reads.get.yields.bind fun c _ => ?_
    exact yields_readUntil h _ _

theorem reads_extendList {values : Run (List Value)} (h : Reads Fault.IsWire values) (list : Value) :
    Reads (fun e => e.IsWire ∨ e = .noMember) (extendList list values) := by
  have hvalues := h.imp (fun e he => (Or.inl he : e.IsWire ∨ e = .noMember))
  cases list with
  | none => exact hvalues.bind fun _ => .pure _
  | list items => exact hvalues.bind fun _ => .pure _
  | bool _ | int _ | float _ | str _ | bytes _ | dict _ => exact .throw (.inr rfl)

/-- Only a value that is no list can make reading a run fail for another reason than its bytes. -/
theorem reads_readPacked (coding : Wire.Coding) (signed : Bool) (list : Value) :
    Reads (fun e => e.IsWire ∨ e = .noMember) (readPacked coding signed list) := by
  have helement := (advances_readAs coding signed).reads
  refine Reads.get.bind fun c => ?_
  split
  · exact reads_extendList (helement.bind fun _ => .pure _) list
  · refine (advances_readVarint.reads.imp fun _ he => .inl he).bind fun size => Reads.get.bind fun c => ?_
    split
    · exact .pure _
    · exact reads_extendList (reads_readUntil helement _ _) list

/-! ## Fields -/

theorem ends_jump {c : Cursor} {stop : Nat} (t : Nat) (h : c.pos ≤ stop) :
    Ends (jump t stop) c (fun _ c' => c.Moves c') (fun e c' => e.IsWire ∧ c.Moves c') := by
  by_cases hlt : c.length < stop
  · exact ends_of_error (if_pos hlt) ⟨.inl rfl, .refl c⟩
  · refine ends_of_ok (if_neg hlt) ⟨rfl, rfl, h, ?_⟩
    show stop ≤ max c.pos c.length
    omega

/-- Skipping fails for malformed wire data only. -/
theorem reads_skip (key : Nat) : Reads Fault.IsWire (skip key) := by
  unfold skip
  split
  · exact advances_readVarint.reads.map _
  · exact fun c => .bind (ends_jump 1 (Nat.le_add_right c.pos 8))
  · refine advances_readVarint.reads.bind fun size c => ?_
    exact .bind (ends_jump 2 (Nat.le_add_left c.pos size))
  · exact fun c => .bind (ends_jump 5 (Nat.le_add_right c.pos 4))
  · exact .throw (.inl rfl)

/-- The rule for one field. The body keeps an invariant, moves forward and fails only as `bad` allows.
It is started with fewer bytes left than the field was, because a key comes first. -/
theorem readNext_ends {σ : Type} {onField : Nat → σ → Run σ} {Inv : σ → Prop} {bad : Fault → Prop}
    {n : Nat}
    (hbody : ∀ tag acc c, c.rest.length < n → Inv acc →
      Ends (onField tag acc) c (fun acc' c' => Inv acc' ∧ c.Moves c') (fun e c' => bad e ∧ c.Moves c'))
    (hbad : ∀ e, e.IsWire → bad e) {acc : σ} {c : Cursor} (hn : c.rest.length ≤ n) (hinv : Inv acc) :
    Ends (readNext onField acc) c
      (fun acc' c' => Inv acc' ∧ c.Moves c' ∧ c.pos < c'.pos) (fun e c' => bad e ∧ c.Moves c') := by
  refine .bind ((readVarint_ends c).imp (fun key c₁ hkey => ?_)
    (fun e c' ⟨he, hm⟩ => ⟨hbad e (.inl he), hm⟩))
  obtain ⟨-, hm₁, hpos, hrest⟩ := hkey
  refine .bind (.bind ?_)
  -- the cursor between key and value: only its wire type is new
  have hm₂ := moves_setWireType c₁ (.int (key % 8 : Nat))
  have hm₁₂ := hm₁.trans hm₂
  have hrest₂ : Cursor.rest { c₁ with wireType := .int (key % 8 : Nat) } = c₁.rest := rfl
  refine .bind ((hbody _ acc _ (by rw [hrest₂]; omega) hinv).imp (fun acc' c₃ h₃ => ?_)
    (fun e c' ⟨he, hm⟩ => ⟨he, hm₁₂.trans hm⟩))
  obtain ⟨hinv', hm₃⟩ := h₃
  have hm₁₃ := hm₁₂.trans hm₃
  have hpos₃ : c.pos < c₃.pos := Nat.lt_of_lt_of_le hpos hm₃.le
  refine .bind ?_
  show Ends (if c₃.pos = _ then _ else _) c₃ _ _
  split
  · refine .bind ((reads_skip key c₃).imp (fun _ c₄ hm₄ => ?_)
      (fun e c' ⟨he, hm⟩ => ⟨hbad e he, hm₁₃.trans hm⟩))
    exact ends_pure ⟨hinv', hm₁₃.trans hm₄, Nat.lt_of_lt_of_le hpos₃ hm₄.le⟩
  · exact ends_pure ⟨hinv', hm₁₃, hpos₃⟩

/-- The rule for the loop over fields. With a limit that covers the distance to `stop`, a loop that
ends well has reached `stop`. -/
theorem readFieldsUntil_ends {σ : Type} {onField : Nat → σ → Run σ} {Inv : σ → Prop}
    {bad : Fault → Prop} {n stop : Nat}
    (hbody : ∀ tag acc c, c.rest.length < n → Inv acc →
      Ends (onField tag acc) c (fun acc' c' => Inv acc' ∧ c.Moves c') (fun e c' => bad e ∧ c.Moves c'))
    (hbad : ∀ e, e.IsWire → bad e) (limit : Nat) {acc : σ} {c : Cursor} (hn : c.rest.length ≤ n)
    (hinv : Inv acc) (hlimit : stop - c.pos ≤ limit) :
    Ends (readFieldsUntil onField stop limit acc) c
      (fun acc' c' => Inv acc' ∧ c.Moves c' ∧ stop ≤ c'.pos) (fun e c' => bad e ∧ c.Moves c') := by
  induction limit generalizing acc c with
  | zero => exact ends_pure ⟨hinv, .refl c, by omega⟩
  | succ limit ih =>
    refine .bind ?_
    show Ends (if c.pos < stop then _ else _) c _ _
    split
    · refine .bind ((readNext_ends hbody hbad hn hinv).imp (fun acc' c₁ h₁ => ?_) (fun _ _ he => he))
      obtain ⟨hinv', hm₁, hpos⟩ := h₁
      have hn₁ : c₁.rest.length ≤ n := Nat.le_trans hm₁.rest_le hn
      refine (ih hn₁ hinv' (by omega)).imp (fun _ _ ⟨hi, hm, hs⟩ => ⟨hi, hm₁.trans hm, hs⟩)
        (fun _ _ ⟨he, hm⟩ => ⟨he, hm₁.trans hm⟩)
    · exact ends_pure ⟨hinv, .refl c, by omega⟩

/-- The rule for reading fields up to where a value says. -/
theorem readFields_ends {σ : Type} {onField : Nat → σ → Run σ} {Inv : σ → Prop}
    {bad : Fault → Prop} {n : Nat} {stop : Value}
    (hbody : ∀ tag acc c, c.rest.length < n → Inv acc →
      Ends (onField tag acc) c (fun acc' c' => Inv acc' ∧ c.Moves c') (fun e c' => bad e ∧ c.Moves c'))
    (hbad : ∀ e, e.IsWire → bad e) {acc : σ} {c : Cursor} (hn : c.rest.length ≤ n) (hinv : Inv acc)
    (hstop : ∀ e, stopAt stop c = .error e → bad e) :
    Ends (readFields onField stop acc) c
      (fun acc' c' => Inv acc' ∧ c.Moves c' ∧ ∀ limit, stopAt stop c = .ok limit → limit ≤ c'.pos)
      (fun e c' => bad e ∧ c.Moves c') := by
  refine .bind (.bind (ends_lift (fun limit hlimit => ?_) (fun e he => ⟨hstop e he, .refl c⟩)))
  refine .bind ((readFieldsUntil_ends hbody hbad _ hn hinv (Nat.le_refl _)).imp ?_ (fun _ _ he => he))
  rintro acc' c' ⟨hinv', hm, hpos⟩
  refine ⟨hinv', hm, fun limit' h => ?_⟩
  rw [hlimit] at h
  cases h
  exact hpos

/-- Only a stop that is no number is refused. -/
theorem stopAt_error {stop : Value} {c : Cursor} {e : Fault} (h : stopAt stop c = .error e) :
    e = .wrongType := by
  unfold stopAt at h
  split at h
  · cases h
  · split at h
    · cases h
    · cases h
    · split at h
      · cases h
      · split at h <;> cases h
    · cases h
      rfl

/-- A positive number is a position to stop at; zero would stand for the end of the bytes. -/
theorem stopAt_int {stop : Nat} (h : 0 < stop) (c : Cursor) : stopAt (.int stop) c = .ok stop := by
  simp [stopAt, Value.truthy]
  omega

/-- A stop that is a number is never refused. -/
theorem stopAt_int_ne_error {stop : Int} {c : Cursor} {e : Fault} : stopAt (.int stop) c ≠ .error e := by
  intro h
  unfold stopAt at h
  split at h <;> cases h

section

variable {σ : Type} {onField : Nat → σ → Run σ}

/-- The key of a field takes a byte, so a loop over fields makes progress whatever its body does. -/
theorem advances_readNext (h : ∀ tag acc, Reads (fun _ => True) (onField tag acc)) (acc : σ) :
    Advances (fun _ => True) (readNext onField acc) := by
  intro c
  have hnext : Ends (readNext onField acc) c (fun _ c' => True ∧ c.Moves c' ∧ c.pos < c'.pos)
      (fun _ c' => True ∧ c.Moves c') := by
    refine readNext_ends (fun tag acc c _ _ => ?_) (fun _ _ => trivial) (Nat.le_refl _) trivial
    exact (h tag acc c).imp (fun _ _ hm => ⟨trivial, hm⟩) (fun _ _ he => he)
  exact hnext.imp (fun _ _ hm => hm.2) (fun _ _ he => he)

/-- A loop over fields reads if its body does. -/
theorem reads_readFields (h : ∀ tag acc, Reads (fun _ => True) (onField tag acc)) (stop : Value)
    (acc : σ) : Reads (fun _ => True) (readFields onField stop acc) := by
  refine Reads.get.bind fun c => (Reads.lift fun _ _ => trivial).bind fun limit => ?_
  refine Reads.get.bind fun c => ?_
  generalize limit - c.pos = steps
  induction steps generalizing acc with
  | zero => exact .pure _
  | succ steps ih =>
    refine Reads.get.bind fun c => ?_
    split
    · exact (advances_readNext h acc).reads.bind fun acc' => ih acc'
    · exact .pure _

end

/-! ## Loops that keep their state in another form -/

section

variable {σ τ : Type} {f : Nat → τ → Run τ} {g : Nat → σ → Run σ} {φ : σ → τ}

/-- A body that works on an image of the accumulator can be replaced by one that works on the
accumulator. -/
theorem readNext_map (h : ∀ tag a, f tag (φ a) = φ <$> g tag a) (a : σ) :
    readNext f (φ a) = φ <$> readNext g a := by
  simp only [readNext, h, map_bind, bind_map_left]
  refine bind_congr fun key => bind_congr fun c => bind_congr fun _ => bind_congr fun a' =>
    bind_congr fun c' => ?_
  split
  · rw [map_bind, map_pure]
  · rw [map_pure]

theorem readFieldsUntil_map (h : ∀ tag a, f tag (φ a) = φ <$> g tag a) (stop limit : Nat) (a : σ) :
    readFieldsUntil f stop limit (φ a) = φ <$> readFieldsUntil g stop limit a := by
  induction limit generalizing a with
  | zero => rfl
  | succ limit ih =>
    rw [readFieldsUntil, readFieldsUntil, map_bind]
    refine bind_congr fun c => ?_
    split
    · simp only [readNext_map h, map_bind, bind_map_left, ih]
    · rfl

/-- The loop may run on the accumulator instead of its image. -/
theorem readFields_map (h : ∀ tag a, f tag (φ a) = φ <$> g tag a) (stop : Value) (a : σ) :
    readFields f stop (φ a) = φ <$> readFields g stop a := by
  simp only [readFields, readFieldsTo, readFieldsUntil_map h, map_bind]

end

end Cursor

end ProtoScribe
