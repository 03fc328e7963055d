import ProtoScribe.Proofs.Cursor.Forward

/-!
# Readers see only what they read

What a reader does depends neither on where in a buffer it starts nor, if it succeeds, on what follows
the bytes that it reads.

`Cursor.Shifted offset tail c c'` relates two cursors: the second stands `offset` further on in its
buffer and has the same bytes left, and then `tail`. `Run.Follows` relates two runs from such cursors.
If the first succeeds, so does the second, with the same value. If it fails, it may have run out of
bytes, and the second need not fail unless there is no tail. Positions that a reader is given move along
with the cursor.

All readers follow in this sense. So the loop over fields can be cut in two: reading some bytes and then
others goes on as if the others stood alone (`readFields_append`).
-/

namespace ProtoScribe

namespace Cursor

/-! ## Shifted cursors -/

/-- A cursor with a position within its readable bytes. -/
structure Inside (c : Cursor) : Prop where
  pos_le : c.pos ≤ c.length
  length_le : c.length ≤ c.buf.length

/-- Within the readable bytes, what is left is a matter of two positions. -/
theorem Inside.rest_length {c : Cursor} (h : c.Inside) : c.rest.length = c.length - c.pos := by
  have hlength := h.length_le
  rw [Cursor.rest_length]
  omega

theorem inside_ofBytes (bytes : List UInt8) : (ofBytes bytes).Inside where
  pos_le := Nat.zero_le _
  length_le := Nat.le_refl _

@[simp]
theorem rest_ofBytes (bytes : List UInt8) : (ofBytes bytes).rest = bytes := by
  show (bytes.take bytes.length).drop 0 = bytes
  rw [List.take_length, List.drop_zero]

/-- A cursor further on in its buffer, with the same bytes left and then others. -/
structure Shifted (offset : Nat) (tail : List UInt8) (c c' : Cursor) : Prop where
  inside : c.Inside
  inside' : c'.Inside
  pos_eq : c'.pos = c.pos + offset
  rest_eq : c'.rest = c.rest ++ tail

section

variable {offset : Nat} {tail : List UInt8} {c c' : Cursor}

/-- The longer cursor has the offset and the tail on top. -/
theorem Shifted.length_eq (h : Shifted offset tail c c') : c'.length = c.length + offset + tail.length := by
  have hrest := congrArg List.length h.rest_eq
  have hpos := h.pos_eq
  have hle := h.inside.pos_le
  have hle' := h.inside'.pos_le
  rw [List.length_append, h.inside.rest_length, h.inside'.rest_length] at hrest
  omega

/-- The wire type does not matter. -/
theorem Shifted.typed (h : Shifted offset tail c c') (w w' : Value) :
    Shifted offset tail { c with wireType := w } { c' with wireType := w' } where
  inside := ⟨h.inside.pos_le, h.inside.length_le⟩
  inside' := ⟨h.inside'.pos_le, h.inside'.length_le⟩
  pos_eq := h.pos_eq
  rest_eq := h.rest_eq

/-- Both cursors may move on within the bytes that the first has left. -/
theorem Shifted.moved (h : Shifted offset tail c c') {stop : Nat} (hle : c.pos ≤ stop)
    (hstop : stop ≤ c.length) (w w' : Value) :
    Shifted offset tail { c with pos := stop, wireType := w }
      { c' with pos := stop + offset, wireType := w' } where
  inside := ⟨hstop, h.inside.length_le⟩
  inside' := by
    refine ⟨?_, h.inside'.length_le⟩
    show stop + offset ≤ c'.length
    rw [h.length_eq]
    omega
  pos_eq := rfl
  rest_eq := by
    have hleft : stop - c.pos ≤ c.rest.length := by
      rw [h.inside.rest_length]
      omega
    have hdrop : ∀ d : Cursor, ∀ k w, d.pos ≤ k →
        Cursor.rest { d with pos := k, wireType := w } = d.rest.drop (k - d.pos) := by
      intro d k w hk
      simp only [rest, List.drop_drop, Nat.add_sub_cancel' hk]
    have hsame : stop + offset - c'.pos = stop - c.pos := by
      rw [h.pos_eq]
      omega
    rw [hdrop c stop w hle, hdrop c' (stop + offset) w' (by rw [h.pos_eq]; omega), hsame, h.rest_eq,
      List.drop_append_of_le_length hleft]

end

end Cursor

/-! ## Runs that follow others -/

/-- A run from one cursor that does what another does from a cursor before it. -/
def Run.Follows {α : Type} (offset : Nat) (tail : List UInt8) (x y : Run α) (c c' : Cursor) : Prop :=
  Run.Ends x c (fun a d => ∃ d', y c' = .ok a d' ∧ Cursor.Shifted offset tail d d')
    (fun e d => tail = [] → ∃ e' d', y c' = .error e' d' ∧ e'.kind = e.kind ∧
      Cursor.Shifted offset tail d d')

namespace Run

variable {α β : Type} {offset : Nat} {tail : List UInt8} {c c' : Cursor}

theorem follows_pure (h : Cursor.Shifted offset tail c c') (a : α) :
    Follows offset tail (pure a) (pure a) c c' :=
  ends_pure ⟨c', rfl, h⟩

theorem follows_throw (h : Cursor.Shifted offset tail c c') (e : Fault) :
    Follows offset tail (throw e : Run α) (throw e) c c' :=
  ends_throw fun _ => ⟨e, c', rfl, rfl, h⟩

theorem follows_lift (h : Cursor.Shifted offset tail c c') (r : Except Fault α) :
    Follows offset tail (Cursor.lift r) (Cursor.lift r) c c' := by
  cases r with
  | ok a => exact follows_pure h a
  | error e => exact follows_throw h e

theorem follows_get {f g : Cursor → Run α} (h : Follows offset tail (f c) (g c') c c') :
    Follows offset tail (get >>= f) (get >>= g) c c' := h

/-- The rule for sequencing: where the first operations end alike, the second ones start from shifted
cursors. -/
theorem Follows.bind {x y : Run α} {f g : α → Run β} (h : Follows offset tail x y c c')
    (hfg : ∀ a d d', x c = .ok a d → y c' = .ok a d' → Cursor.Shifted offset tail d d' →
      Follows offset tail (f a) (g a) d d') : Follows offset tail (x >>= f) (y >>= g) c c' := by
  refine Ends.bind (.intro (fun a d hx => ?_) (fun e d hx htail => ?_))
  · obtain ⟨d', hy, hshift⟩ := h.of_ok hx
    refine (hfg a d d' hx hy hshift).imp (fun b d₁ hb => ?_) (fun e d₁ he => ?_)
    · rwa [bind_of_ok hy]
    · rwa [bind_of_ok hy]
  · obtain ⟨e', d', hy, hkind, hshift⟩ := h.of_error hx htail
    exact ⟨e', d', bind_of_error hy, hkind, hshift⟩

theorem Follows.map {x y : Run α} (h : Follows offset tail x y c c') (f : α → β) :
    Follows offset tail (f <$> x) (f <$> y) c c' := by
  rw [map_eq_pure_bind, map_eq_pure_bind]
  exact h.bind fun a _ _ _ _ hshift => follows_pure hshift (f a)

end Run

namespace Cursor

open Run

variable {offset : Nat} {tail : List UInt8} {c c' : Cursor}

/-! ## Single values -/

/-- A varint looks at its own bytes only, so what comes behind does not matter. -/
theorem follows_readVarint (h : Shifted offset tail c c') :
    Follows offset tail readVarint readVarint c c' := by
  have htaken := Wire.scan_taken_le 10 c.rest
  rw [h.inside.rest_length] at htaken
  have hmoved := h.moved (Nat.le_add_right _ _)
    (by have := h.inside.pos_le; omega : c.pos + (Wire.scan 10 c.rest).taken ≤ c.length) c.wireType
    c'.wireType
  have hpos : c.pos + (Wire.scan 10 c.rest).taken + offset = c'.pos + (Wire.scan 10 c.rest).taken := by
    rw [h.pos_eq]
    omega
  rw [hpos] at hmoved
  cases hv : (Wire.scan 10 c.rest).value with
  | ok n =>
    have hscan : Wire.scan 10 c'.rest = Wire.scan 10 c.rest := by
      rw [h.rest_eq, Wire.scan_append hv]
    refine ends_of_ok (readVarint_of_ok hv) ⟨_, readVarint_of_ok (hscan ▸ hv), ?_⟩
    rw [hscan]
    exact hmoved
  | error e =>
    refine ends_of_error (readVarint_of_error hv) fun htail => ?_
    have hscan : Wire.scan 10 c'.rest = Wire.scan 10 c.rest := by
      rw [h.rest_eq, htail, List.append_nil]
    refine ⟨e, _, readVarint_of_error (hscan ▸ hv), rfl, ?_⟩
    rw [hscan]
    exact hmoved

/-- Moving to a position within the readable bytes, or failing where the cursor is. -/
theorem follows_bounded {α : Type} {stop stop' : Nat} {value value' : α} {fault fault' : Fault}
    (h : Shifted offset tail c c') (hle : c.pos ≤ stop) (hstop : stop' = stop + offset)
    (hvalue : stop ≤ c.length → value' = value) (hkind : fault'.kind = fault.kind) :
    Follows offset tail
      (fun d => if d.length < stop then .error fault d else .ok value { d with pos := stop })
      (fun d => if d.length < stop' then .error fault' d else .ok value' { d with pos := stop' }) c c' := by
  have hlength := h.length_eq
  subst hstop
  by_cases hlt : c.length < stop
  · refine ends_of_error (if_pos hlt) fun htail => ?_
    have hlt' : c'.length < stop + offset := by
      rw [hlength, htail, List.length_nil]
      omega
    exact ⟨fault', c', if_pos hlt', hkind, h⟩
  · have hlt' : ¬ c'.length < stop + offset := by omega
    obtain rfl := hvalue (by omega)
    refine ends_of_ok (if_neg hlt) ⟨_, if_neg hlt', ?_⟩
    exact h.moved hle (by omega) c.wireType c'.wireType

/-- The next bytes are the same, if there are enough of them. -/
theorem Shifted.take_eq (h : Shifted offset tail c c') {size : Nat} (hsize : c.pos + size ≤ c.length) :
    c'.rest.take size = c.rest.take size := by
  have hle : size ≤ c.rest.length := by
    rw [h.inside.rest_length]
    omega
  rw [h.rest_eq, List.take_append_of_le_length hle]

/-- A fixed-width value that fits here fits there, too. -/
theorem follows_readFixed (h : Shifted offset tail c c') (size : Nat) :
    Follows offset tail (readFixed size) (readFixed size) c c' := by
  refine follows_bounded h (Nat.le_add_right c.pos size) ?_ (fun hsize => ?_) rfl
  · rw [h.pos_eq]
    omega
  · rw [h.take_eq hsize]

theorem follows_readBytes (h : Shifted offset tail c c') :
    Follows offset tail readBytes readBytes c c' := by
  refine (follows_readVarint h).bind fun size d d' _ _ hd => ?_
  refine follows_bounded hd (Nat.le_add_left d.pos size) ?_ (fun hsize => ?_) rfl
  · rw [hd.pos_eq]
    omega
  · rw [hd.take_eq (by omega)]

theorem follows_read (h : Shifted offset tail c c') (coding : Wire.Coding) :
    Follows offset tail (read coding) (read coding) c c' := by
  cases coding with
  | varint | svarint | boolean =>
    exact (follows_readVarint h).bind fun _ _ _ _ _ hd => follows_pure hd _
  | fixed32 | sfixed32 | float =>
    exact (follows_readFixed h 4).bind fun _ _ _ _ _ hd => follows_pure hd _
  | fixed64 | sfixed64 | double =>
    exact (follows_readFixed h 8).bind fun _ _ _ _ _ hd => follows_pure hd _
  | bytes => exact (follows_readBytes h).bind fun _ _ _ _ _ hd => follows_pure hd _
  | string =>
    refine (follows_readBytes h).bind fun bytes _ _ _ _ hd => ?_
    exact (follows_lift hd _).bind fun _ _ _ _ _ hd => follows_pure hd _

theorem follows_readAs (h : Shifted offset tail c c') (coding : Wire.Coding) (signed : Bool) :
    Follows offset tail (readAs coding signed) (readAs coding signed) c c' := by
  unfold readAs
  split
  · refine Follows.bind ?_ fun _ _ _ _ _ hd => follows_pure hd _
    exact (follows_readVarint h).bind fun _ _ _ _ _ hd => follows_pure hd _
  · exact follows_read h coding

/-! ## Packed runs -/

/-- The stop moves with the cursor. -/
theorem follows_readUntil {element : Run Value}
    (helement : ∀ d d', Shifted offset tail d d' → Follows offset tail element element d d')
    (stop limit : Nat) (h : Shifted offset tail c c') :
    Follows offset tail (readUntil element stop limit) (readUntil element (stop + offset) limit) c c' := by
  induction limit generalizing c c' with
  | zero => exact follows_pure h []
  | succ limit ih =>
    refine follows_get ?_
    have hpos := h.pos_eq
    by_cases hlt : c.pos < stop
    · rw [if_pos hlt, if_pos (by omega)]
      refine (helement c c' h).bind fun v d d' _ _ hd => ?_
      exact (ih hd).bind fun vs _ _ _ _ hd => follows_pure hd (v :: vs)
    · rw [if_neg hlt, if_neg (by omega)]
      exact follows_pure h []

theorem follows_extendList {values values' : Run (List Value)} (h : Shifted offset tail c c')
    (hvalues : Follows offset tail values values' c c') (list : Value) :
    Follows offset tail (extendList list values) (extendList list values') c c' := by
  cases list with
  | none => exact hvalues.bind fun _ _ _ _ _ hd => follows_pure hd _
  | list items => exact hvalues.bind fun _ _ _ _ _ hd => follows_pure hd _
  | bool _ | int _ | float _ | str _ | bytes _ | dict _ => exact follows_throw h _

/-- The wire type decides whether a packed field is a run, so it has to be the same. -/
theorem follows_readPacked (h : Shifted offset tail c c') (hw : c'.wireType = c.wireType)
    (coding : Wire.Coding) (signed : Bool) (list : Value) :
    Follows offset tail (readPacked coding signed list) (readPacked coding signed list) c c' := by
  have helement : ∀ d d', Shifted offset tail d d' →
      Follows offset tail (readAs coding signed) (readAs coding signed) d d' :=
    fun d d' hd => follows_readAs hd coding signed
  refine follows_get ?_
  have hrunType : c'.isDelimited = c.isDelimited := by simp only [isDelimited, hw]
  simp only [hrunType]
  by_cases hrun : (!c.isDelimited) = true
  · rw [if_pos hrun]
    refine follows_extendList h ?_ list
    exact (helement c c' h).bind fun v _ _ _ _ hd => follows_pure hd [v]
  · rw [if_neg hrun]
    refine (follows_readVarint h).bind fun size d d' _ _ hd => follows_get ?_
    by_cases hzero : size = 0
    · rw [if_pos hzero, if_pos hzero]
      exact follows_pure hd _
    · rw [if_neg hzero, if_neg hzero, hd.pos_eq, ← Nat.add_assoc]
      exact follows_extendList hd (follows_readUntil helement _ _ hd) list

/-! ## Fields -/

theorem follows_jump (h : Shifted offset tail c c') {stop stop' : Nat} (hle : c.pos ≤ stop)
    (hstop : stop' = stop + offset) (t : Nat) :
    Follows offset tail (jump t stop) (jump t stop') c c' := by
  refine follows_bounded h hle hstop (fun _ => rfl) rfl

/-- A field is skipped alike on both sides, as is decided by its key and its length. -/
theorem follows_skip (h : Shifted offset tail c c') (key : Nat) :
    Follows offset tail (skip key) (skip key) c c' := by
  have hpos := h.pos_eq
  unfold skip
  split
  · exact (follows_readVarint h).map _
  · exact follows_get (follows_jump h (Nat.le_add_right c.pos 8) (by omega) 1)
  · refine (follows_readVarint h).bind fun size d d' _ _ hd => follows_get ?_
    refine follows_jump hd (Nat.le_add_left d.pos size) ?_ 2
    rw [hd.pos_eq]
    omega
  · exact follows_get (follows_jump h (Nat.le_add_right c.pos 4) (by omega) 5)
  · exact follows_throw h _

section

variable {σ : Type} {onField : Nat → σ → Run σ}
  (hfield : ∀ tag acc d d', Shifted offset tail d d' → d'.wireType = d.wireType →
    Follows offset tail (onField tag acc) (onField tag acc) d d')

include hfield

/-- A field sets the wire type before it is handed on, so that of the cursors does not matter. -/
theorem follows_readNext (h : Shifted offset tail c c') (acc : σ) :
    Follows offset tail (readNext onField acc) (readNext onField acc) c c' := by
  refine (follows_readVarint h).bind fun key d d' _ _ hd => follows_get ?_
  have hhanded := hfield (key / 8) acc _ _ (hd.typed (.int (key % 8 : Nat)) (.int (key % 8 : Nat))) rfl
  show Follows offset tail (onField (key / 8) acc >>= _) (onField (key / 8) acc >>= _) _ _
  refine hhanded.bind fun acc' d₁ d₁' _ _ hd₁ => follows_get ?_
  have hpos := hd.pos_eq
  have hpos₁ := hd₁.pos_eq
  by_cases hstill : d₁.pos = d.pos
  · rw [if_pos hstill, if_pos (by omega)]
    exact (follows_skip hd₁ key).bind fun _ _ _ _ _ hd => follows_pure hd acc'
  · rw [if_neg hstill, if_neg (by omega)]
    exact follows_pure hd₁ acc'

/-- The rule for the loop; the limit on rounds is a distance, and distances do not shift. -/
theorem follows_readFieldsUntil (stop limit : Nat) (h : Shifted offset tail c c') (acc : σ) :
    Follows offset tail (readFieldsUntil onField stop limit acc)
      (readFieldsUntil onField (stop + offset) limit acc) c c' := by
  induction limit generalizing c c' acc with
  | zero => exact follows_pure h acc
  | succ limit ih =>
    refine follows_get ?_
    have hpos := h.pos_eq
    by_cases hlt : c.pos < stop
    · rw [if_pos hlt, if_pos (by omega)]
      exact (follows_readNext hfield h acc).bind fun acc' d d' _ _ hd => ih hd acc'
    · rw [if_neg hlt, if_neg (by omega)]
      exact follows_pure h acc

theorem follows_readFieldsTo (stop : Nat) (h : Shifted offset tail c c') (acc : σ) :
    Follows offset tail (readFieldsTo onField stop acc) (readFieldsTo onField (stop + offset) acc) c c' := by
  refine follows_get ?_
  have hlimit : stop + offset - c'.pos = stop - c.pos := by
    rw [h.pos_eq]
    omega
  rw [hlimit]
  exact follows_readFieldsUntil hfield stop _ h acc

/-- A stop that is a position is shifted; zero, which is none, is excluded. -/
theorem follows_readFields {stop : Nat} (hstop : 0 < stop) (h : Shifted offset tail c c') (acc : σ) :
    Follows offset tail (readFields onField (.int stop) acc) (readFields onField (.int (stop + offset : Nat)) acc)
      c c' := by
  refine follows_get ?_
  rw [stopAt_int hstop, stopAt_int (by omega)]
  exact follows_readFieldsTo hfield stop h acc

end

/-! ## Loops in two parts -/

section

variable {σ : Type} {onField : Nat → σ → Run σ} {stop : Nat} {acc acc' : σ}
  (hreads : ∀ tag acc, Reads (fun _ => True) (onField tag acc))

include hreads

/-- Any limit that covers the distance will do. -/
theorem readFieldsUntil_limit {limit limit' : Nat} (hlimit : stop - c.pos ≤ limit)
    (hlimit' : stop - c.pos ≤ limit') :
    readFieldsUntil onField stop limit acc c = readFieldsUntil onField stop limit' acc c := by
  induction limit generalizing limit' acc c with
  | zero =>
    cases limit' with
    | zero => rfl
    | succ limit' =>
      rw [readFieldsUntil, readFieldsUntil, bind_apply, get_apply]
      simp only
      rw [if_neg (by omega)]
  | succ limit ih =>
    by_cases hlt : c.pos < stop
    · -- there is a field to read, and fewer bytes behind it
      obtain ⟨limit', rfl⟩ := Nat.exists_eq_succ_of_ne_zero (by omega : limit' ≠ 0)
      rw [readFieldsUntil, readFieldsUntil, bind_apply, bind_apply, get_apply]
      simp only
      rw [if_pos hlt, if_pos hlt, bind_apply, bind_apply]
      cases hnext : readNext onField acc c with
      | error e d => rfl
      | ok acc₁ d =>
        have hpos := ((advances_readNext hreads acc c).of_ok hnext).2
        exact ih (by omega) (by omega)
    · cases limit' with
      | zero =>
        rw [readFieldsUntil, readFieldsUntil, bind_apply, get_apply]
        simp only
        rw [if_neg hlt]
      | succ limit' =>
        rw [readFieldsUntil, readFieldsUntil, bind_apply, bind_apply, get_apply]
        simp only
        rw [if_neg hlt, if_neg hlt]

/-- One field of a loop that has not reached its end. -/
theorem readFieldsTo_step (hlt : c.pos < stop) {d : Cursor} (hnext : readNext onField acc c = .ok acc' d) :
    readFieldsTo onField stop acc c = readFieldsTo onField stop acc' d := by
  have hpos := ((advances_readNext hreads acc c).of_ok hnext).2
  obtain ⟨limit, hlimit⟩ := Nat.exists_eq_succ_of_ne_zero (by omega : stop - c.pos ≠ 0)
  rw [readFieldsTo, bind_apply, get_apply]
  simp only
  rw [hlimit, readFieldsUntil, bind_apply, get_apply]
  simp only
  rw [if_pos hlt, bind_of_ok hnext, readFieldsTo, bind_apply, get_apply]
  exact readFieldsUntil_limit hreads (by omega) (Nat.le_refl _)

/-- Reading on to a later stop starts with what is read up to an earlier one, also if there are more
bytes. The induction is on the limit of the first loop. -/
theorem readFieldsTo_later
    (hfield : ∀ tag acc d d', Shifted 0 tail d d' → d'.wireType = d.wireType →
      Follows 0 tail (onField tag acc) (onField tag acc) d d')
    {later limit : Nat} (hlater : stop ≤ later) (h : Shifted 0 tail c c') {d : Cursor}
    (hread : readFieldsUntil onField stop limit acc c = .ok acc' d) :
    ∃ d', Shifted 0 tail d d' ∧
      readFieldsTo onField later acc c' = readFieldsTo onField later acc' d' := by
  induction limit generalizing c c' acc with
  | zero =>
    cases hread
    exact ⟨c', h, rfl⟩
  | succ limit ih =>
    rw [readFieldsUntil, bind_apply, get_apply] at hread
    simp only at hread
    split at hread
    · next hlt =>
      obtain ⟨acc₁, d₁, hnext, hread⟩ := bind_eq_ok hread
      obtain ⟨d₁', hnext', hd₁⟩ := (follows_readNext hfield h acc).of_ok hnext
      obtain ⟨d', hd, hrest⟩ := ih hd₁ hread
      have hpos := h.pos_eq
      refine ⟨d', hd, ?_⟩
      rw [readFieldsTo_step hreads (by omega) hnext', hrest]
    · cases hread
      exact ⟨c', h, rfl⟩

/-- All of the bytes of a buffer are read. -/
theorem readFields_reaches {bytes : List UInt8} {d : Cursor}
    (hread : readFields onField .none acc (.ofBytes bytes) = .ok acc' d) :
    d.pos = bytes.length ∧ d.rest = [] := by
  have hends : Ends (readFields onField .none acc) (.ofBytes bytes)
      (fun _ d => True ∧ (ofBytes bytes).Moves d ∧
        ∀ limit, stopAt .none (.ofBytes bytes) = .ok limit → limit ≤ d.pos)
      (fun _ d => True ∧ (ofBytes bytes).Moves d) :=
    readFields_ends (fun tag acc c _ _ => (hreads tag acc).yields c) (fun _ _ => trivial) (Nat.le_refl _)
      trivial (fun _ _ => trivial)
  obtain ⟨-, hmoves, hreached⟩ := hends.of_ok hread
  have hlow := hreached bytes.length rfl
  have hhigh : d.pos ≤ max 0 bytes.length := hmoves.within
  have hlength : d.length = bytes.length := hmoves.length_eq
  refine ⟨by omega, List.length_eq_zero_iff.1 ?_⟩
  rw [Cursor.rest_length]
  omega

omit hreads in
/-- The cursor behind the first of two parts sees the second part. -/
theorem shifted_behind {first second : List UInt8} {d d' : Cursor} (hpos : d.pos = first.length)
    (hrest : d.rest = []) (h : Shifted 0 second d d') : Shifted first.length [] (.ofBytes second) d' where
  inside := inside_ofBytes second
  inside' := h.inside'
  pos_eq := by
    have hsame := h.pos_eq
    show d'.pos = 0 + first.length
    omega
  rest_eq := by
    rw [h.rest_eq, hrest]
    simp

/-- Reading two parts in a row is reading the second on top of what the first was read as. -/
theorem readFields_append
    (hfield : ∀ offset tail tag acc d d', Shifted offset tail d d' → d'.wireType = d.wireType →
      Follows offset tail (onField tag acc) (onField tag acc) d d')
    {first : List UInt8} {d : Cursor} (hread : readFields onField .none acc (.ofBytes first) = .ok acc' d)
    (second : List UInt8) :
    Follows first.length [] (readFields onField .none acc') (readFields onField .none acc)
      (.ofBytes second) (.ofBytes (first ++ second)) := by
  obtain ⟨hpos, hrest⟩ := readFields_reaches hreads hread
  have hstart : Shifted 0 second (.ofBytes first) (.ofBytes (first ++ second)) :=
    ⟨inside_ofBytes _, inside_ofBytes _, rfl, by simp⟩
  -- the loop over both parts does the first part, and then stands in front of the second
  have hfirst : readFieldsUntil onField first.length first.length acc (.ofBytes first) = .ok acc' d := hread
  obtain ⟨d', hd, hsame⟩ := readFieldsTo_later hreads (hfield 0 second)
    (Nat.le_add_left first.length second.length) hstart hfirst
  have hsecond := follows_readFieldsTo (hfield first.length []) second.length (shifted_behind hpos hrest hd)
    acc'
  have hwhole : readFields onField .none acc (.ofBytes (first ++ second)) =
      readFieldsTo onField (second.length + first.length) acc' d' := by
    rw [← hsame, Nat.add_comm, ← List.length_append]
    rfl
  unfold Follows at hsecond ⊢
  rw [hwhole]
  exact hsecond

end

end Cursor

end ProtoScribe
