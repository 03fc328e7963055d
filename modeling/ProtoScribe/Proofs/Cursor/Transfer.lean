import ProtoScribe.Cursor.Write
import ProtoScribe.Proofs.Cursor.Forward

/-!
# Exact bytes

Writers and readers meet in the bytes between them.

* `Run.Appends x bytes`: the writer `x` succeeds from every cursor, and all it does is to append
  `bytes` to the buffer.
* `Run.Takes w x bytes a`: wherever `bytes` stand in front of what is left, and whatever follows them,
  the reader `x` succeeds with `a` and stops right behind them. The last key announced the wire type
  `w`; only the readers of packed fields look at it.

Both are closed under sequencing, which concatenates the bytes. `Run.Streams` is the closure of one
reading step under repetition; the loops over fields and over packed values take what it takes.
-/

namespace ProtoScribe

namespace Cursor

variable {c : Cursor} {bytes tail : List UInt8}

/-- What is left behind bytes that were taken. -/
theorem rest_behind (h : c.rest = bytes ++ tail) (w : Value) :
    rest { c with pos := c.pos + bytes.length, wireType := w } = tail := by
  have hdrop : rest { c with pos := c.pos + bytes.length, wireType := w } =
      c.rest.drop bytes.length := by
    simp [rest, List.drop_drop]
  rw [hdrop, h, List.drop_left]

/-- Bytes that are left to read are within the readable ones. -/
theorem behind_le_length (h : c.rest = bytes ++ tail) (hne : bytes ≠ []) :
    c.pos + bytes.length ≤ c.length := by
  have hlength := congrArg List.length h
  rw [rest_length, List.length_append] at hlength
  have hpos := List.length_pos_iff.2 hne
  omega

end Cursor

namespace Run

variable {α β σ : Type}

/-! ## Writers -/

def Appends (x : Run Unit) (bytes : List UInt8) : Prop :=
  ∀ c, x c = .ok () { c with buf := c.buf ++ bytes }

theorem appends_nothing : Appends (pure ()) [] := by
  intro c
  rw [List.append_nil]
  rfl

/-- A writer appends one thing only. -/
theorem Appends.unique {x : Run Unit} {bytes bytes' : List UInt8} (h : Appends x bytes)
    (h' : Appends x bytes') : bytes = bytes' := by
  have heq := (h .empty).symm.trans (h' .empty)
  injection heq with _ hcursor
  exact congrArg Cursor.buf hcursor

/-- What two writers append in a row. -/
theorem Appends.bind {x : Run Unit} {f : Unit → Run Unit} {a b : List UInt8} (hx : Appends x a)
    (hf : Appends (f ()) b) : Appends (x >>= f) (a ++ b) := by
  intro c
  rw [bind_of_ok (hx c), hf, List.append_assoc]

theorem Appends.forM {as : List α} {f : α → Run Unit} {g : α → List UInt8}
    (h : ∀ a ∈ as, Appends (f a) (g a)) : Appends (as.forM f) (as.flatMap g) := by
  induction as with
  | nil => exact appends_nothing
  | cons a as ih =>
    rw [List.flatMap_cons]
    exact (h a (by simp)).bind (ih fun b hb => h b (by simp [hb]))

/-! ## Readers -/

/-- A reader that takes the given bytes and ends with `a`. -/
def Takes (w : Value) (x : Run α) (bytes : List UInt8) (a : α) : Prop :=
  ∀ (c : Cursor) (tail : List UInt8), c.wireType = w → c.rest = bytes ++ tail →
    ∃ w', x c = .ok a { c with pos := c.pos + bytes.length, wireType := w' }

variable {w : Value}

theorem Takes.pure (a : α) : Takes w (Pure.pure a) [] a := fun c _ _ _ => ⟨c.wireType, rfl⟩

/-- What two readers take in a row. The wire type may change in between. -/
theorem Takes.bind {x : Run α} {f : α → Run β} {a : α} {b : β} {bytes bytes' : List UInt8}
    (hx : Takes w x bytes a) (hf : ∀ w, Takes w (f a) bytes' b) :
    Takes w (x >>= f) (bytes ++ bytes') b := by
  intro c tail hw hrest
  rw [List.append_assoc] at hrest
  obtain ⟨w₁, hx⟩ := hx c _ hw hrest
  obtain ⟨w₂, hf⟩ := hf w₁ _ tail rfl (Cursor.rest_behind hrest w₁)
  refine ⟨w₂, ?_⟩
  rw [bind_of_ok hx, hf, List.length_append, Nat.add_assoc]

theorem Takes.map {x : Run α} {a : α} {bytes : List UInt8} (hx : Takes w x bytes a) (f : α → β) :
    Takes w (x >>= fun a => Pure.pure (f a)) bytes (f a) := by
  have hmap : Takes w (x >>= fun a => Pure.pure (f a)) (bytes ++ []) (f a) := hx.bind fun _ => .pure _
  rwa [List.append_nil] at hmap

/-- Steps that take bytes one after the other, each at least one of them. -/
inductive Streams (step : σ → Run σ) : List UInt8 → σ → σ → Prop
  | nil (a : σ) : Streams step [] a a
  | cons {a b c : σ} {bytes rest : List UInt8} : bytes ≠ [] → (∀ w, Takes w (step a) bytes b) →
    Streams step rest b c → Streams step (bytes ++ rest) a c

theorem Streams.single {step : σ → Run σ} {a b : σ} {bytes : List UInt8} (hne : bytes ≠ [])
    (h : ∀ w, Takes w (step a) bytes b) : Streams step bytes a b := by
  have hstreams := Streams.cons hne h (.nil b)
  rwa [List.append_nil] at hstreams

/-- Streams are put in a row like the bytes they take. -/
theorem Streams.append {step : σ → Run σ} {a b c : σ} {bytes bytes' : List UInt8}
    (h : Streams step bytes a b) (h' : Streams step bytes' b c) : Streams step (bytes ++ bytes') a c := by
  induction h with
  | nil => exact h'
  | cons hne hstep _ ih =>
    rw [List.append_assoc]
    exact .cons hne hstep (ih h')

end Run

/-! ## Key numbers -/

namespace Codec

/-- A tag below the limit leaves room for the wire type. -/
theorem keyNumber_lt {tag : Int} {wireType : Nat} (htag : 0 ≤ tag ∧ tag < 2 ^ 61) (hw : wireType < 8) :
    keyNumber tag wireType < 2 ^ 64 := by
  unfold keyNumber
  omega

theorem wireType_lt (coding : Wire.Coding) : coding.wireType < 8 := by cases coding <;> decide

/-- The wire type can be read off a key. -/
theorem keyNumber_mod {tag : Int} {wireType : Nat} (hw : wireType < 8) :
    keyNumber tag wireType % 8 = wireType := by
  unfold keyNumber
  omega

/-- So can the tag. -/
theorem keyNumber_div {tag : Int} {wireType : Nat} (htag : 0 ≤ tag) (hw : wireType < 8) :
    ((keyNumber tag wireType / 8 : Nat) : Int) = tag := by
  unfold keyNumber
  omega

end Codec

namespace Cursor

open Run

variable {w : Value}

/-! ## Keys and frames -/

/-- What was appended to an empty buffer is all that is in it. -/
theorem appends_finish {x : Run Unit} {bytes : List UInt8} (h : Appends x bytes) :
    ∃ c, (x >>= fun _ => finish) .empty = .ok bytes c := by
  rw [bind_of_ok (h .empty)]
  exact ⟨_, rfl⟩

theorem appends_append (bytes : List UInt8) : Appends (append bytes) bytes := fun _ => rfl

/-- The bits of tag and wire type do not overlap. -/
theorem keyOf_eq {tag : Int} {wireType : Nat} (htag : 0 ≤ tag ∧ tag < 2 ^ 61) (hw : wireType < 8) :
    keyOf tag wireType = Codec.keyNumber tag wireType := by
  have htagBits : (tag * 8 % 2 ^ 64).toNat = 2 ^ 3 * tag.toNat := by omega
  have hwireBits : ((wireType : Int) % 2 ^ 64).toNat = wireType := by omega
  rw [keyOf, htagBits, hwireBits, ← Nat.two_pow_add_eq_or_of_lt hw]
  rfl

/-- Shifting the tag and adding the wire type is the number of the key. -/
theorem appends_writeTag {tag : Int} {wireType : Nat} (htag : 0 ≤ tag ∧ tag < 2 ^ 61)
    (hw : wireType < 8) :
    Appends (writeTag (.int tag) (.int wireType)) (Wire.varint (Codec.keyNumber tag wireType)) := by
  have hkey := keyOf_eq htag hw
  intro c
  simp only [writeTag, Value.strictInteger?, hkey]
  exact appends_append _ c

/-- The length that is inserted is that of the bytes behind it. -/
theorem appends_writeFramed {body : Run Unit} {bytes : List UInt8} (h : Appends body bytes) :
    Appends (writeFramed body) (Wire.varint bytes.length ++ bytes) := by
  intro c
  rw [writeFramed, bind_apply, get_apply]
  simp only
  rw [bind_of_ok (h c), bind_apply, get_apply]
  simp [insertAt]

/-- A message in a field: its key, its length, and its bytes. -/
theorem appends_writeMessage {tag : Int} {body : Run Unit} {bytes : List UInt8}
    (htag : 0 ≤ tag ∧ tag < 2 ^ 61) (h : Appends body bytes) :
    Appends (writeMessage (.int tag) body)
      (Wire.varint (Codec.keyNumber tag 2) ++ (Wire.varint bytes.length ++ bytes)) :=
  (appends_writeTag htag (by decide)).bind (appends_writeFramed h)

/-! ## Single values -/

/-- A varint of any shape is taken as the number in it. -/
theorem takes_isVarint {bytes : List UInt8} (h : Wire.isVarint 10 bytes = true) :
    Takes w readVarint bytes (Wire.base128 bytes % 2 ^ 64) := by
  intro c tail _ hrest
  have hscan : Wire.scan 10 c.rest = ⟨.ok (Wire.base128 bytes), bytes.length⟩ := by
    rw [hrest, Wire.scan_of_isVarint h]
  refine ⟨c.wireType, ?_⟩
  rw [readVarint_of_ok (by rw [hscan]), hscan]

/-- A reader takes back what was written for a number of 64 bits. -/
theorem takes_readVarint {n : Nat} (h : n < 2 ^ 64) : Takes w readVarint (Wire.varint n) n := by
  have hn : Wire.base128 (Wire.varint n) % 2 ^ 64 = n := by
    rw [Wire.base128_varint]
    omega
  have htakes := takes_isVarint (w := w) (Wire.isVarint_varint n)
  rwa [hn] at htakes

/-- A number that is too large for its width is cut to it. -/
theorem takes_readFixed {size : Nat} (hsize : 0 < size) (n : Nat) :
    Takes w (readFixed size) (Wire.littleEndian size n) (n % 256 ^ size) := by
  intro c tail _ hrest
  have hlength : (Wire.littleEndian size n).length = size := Wire.littleEndian_length size n
  have hne : Wire.littleEndian size n ≠ [] := List.ne_nil_of_length_pos (by omega)
  have hle := behind_le_length hrest hne
  have htake : c.rest.take size = Wire.littleEndian size n := by
    rw [hrest, List.take_left' hlength]
  refine ⟨c.wireType, ?_⟩
  rw [readFixed, if_neg (by omega), htake, Wire.ofLittleEndian_littleEndian, hlength]

/-- The length says how much to take, whatever the bytes are. -/
theorem takes_readBytes {content : List UInt8} (h : content.length < 2 ^ 64) :
    Takes w readBytes (Wire.varint content.length ++ content) content := by
  intro c tail hw hrest
  -- the length comes first, so the content lies within the buffer even if it is empty
  have hne : Wire.varint content.length ++ content ≠ [] :=
    List.append_ne_nil_of_left_ne_nil (List.ne_nil_of_length_pos (Wire.varint_length_pos _)) _
  have hle := behind_le_length hrest hne
  rw [List.append_assoc] at hrest
  obtain ⟨w', hsize⟩ := takes_readVarint h c _ hw hrest
  have hbehind := rest_behind hrest w'
  rw [List.length_append] at hle
  refine ⟨w', (bind_of_ok hsize).trans ((if_neg ?_).trans ?_)⟩
  · simp only
    omega
  · rw [hbehind, List.take_left' rfl, List.length_append]
    congr 2
    simp only
    omega

/-! ## Skipped fields -/

/-- What may follow a key of a wire type: a varint, eight bytes, a length and as many bytes, or four
bytes. -/
inductive Payload : (wireType : Nat) → List UInt8 → Prop
  | varint {bytes : List UInt8} : Wire.isVarint 10 bytes = true → Payload 0 bytes
  | eight {bytes : List UInt8} : bytes.length = 8 → Payload 1 bytes
  | delimited {size content : List UInt8} : Wire.isVarint 10 size = true →
    Wire.base128 size % 2 ^ 64 = content.length → Payload 2 (size ++ content)
  | four {bytes : List UInt8} : bytes.length = 4 → Payload 5 bytes

theorem Payload.ne_nil {wireType : Nat} {bytes : List UInt8} (h : Payload wireType bytes) : bytes ≠ [] := by
  cases h with
  | varint h => exact Wire.ne_nil_of_isVarint h
  | eight h | four h => exact List.ne_nil_of_length_pos (by omega)
  | delimited h _ => exact List.append_ne_nil_of_left_ne_nil (Wire.ne_nil_of_isVarint h) _

theorem Payload.framed {content : List UInt8} (h : content.length < 2 ^ 64) :
    Payload 2 (Wire.varint content.length ++ content) := by
  refine .delimited (Wire.isVarint_varint _) ?_
  rw [Wire.base128_varint]
  omega

theorem takes_jump {bytes : List UInt8} {size : Nat} (t : Nat) (hsize : bytes.length = size)
    (hpos : 0 < size) : Takes w (do jump t ((← get).pos + size)) bytes () := by
  intro c tail _ hrest
  have hle := behind_le_length hrest (List.ne_nil_of_length_pos (by omega))
  refine ⟨c.wireType, ?_⟩
  rw [bind_apply, get_apply, hsize]
  exact if_neg (by omega)

/-- A complete field is skipped. -/
theorem takes_skip {key : Nat} {payload : List UInt8} (h : Payload (key % 8) payload) :
    Takes w (skip key) payload () := by
  unfold skip
  generalize key % 8 = wireType at h
  cases h with
  | varint hvarint => exact (takes_isVarint hvarint).map fun _ => ()
  | eight hlength => exact takes_jump 1 hlength (by decide)
  | four hlength => exact takes_jump 5 hlength (by decide)
  | @delimited size content hvarint hlength =>
    intro c tail hw hrest
    -- the length comes first, so the content lies within the buffer even if it is empty
    have hle := behind_le_length hrest (List.append_ne_nil_of_left_ne_nil (Wire.ne_nil_of_isVarint hvarint) _)
    rw [List.append_assoc] at hrest
    obtain ⟨w', hsize⟩ := takes_isVarint hvarint c _ hw hrest
    rw [List.length_append] at hle
    refine ⟨w', ?_⟩
    simp only
    rw [bind_of_ok hsize, bind_apply, get_apply, hlength, List.length_append]
    refine (if_neg ?_).trans ?_
    · simp only
      omega
    · congr 2
      simp only
      omega

/-- Text survives its encoding. -/
theorem decodeText_encodeText (s : String) : decodeText (encodeText s) = .ok s := by
  have htext : String.fromUTF8? ⟨(encodeText s).toArray⟩ = some s := by
    simp only [encodeText, String.fromUTF8?, Array.toArray_toList]
    exact dif_pos s.isValidUTF8
  simp only [decodeText, htext]

/-! ## Packed runs -/

/-- Values one after the other are read up to where they end. The induction is on the values: each
takes a byte of the limit at least. -/
theorem readUntil_takes {ι : Type} {element : Run Value} {items : List ι} {bytes : ι → List UInt8}
    {value : ι → Value} (hitems : ∀ i ∈ items, bytes i ≠ [] ∧ ∀ w, Takes w element (bytes i) (value i))
    (limit : Nat) {c : Cursor} {tail : List UInt8} (hrest : c.rest = items.flatMap bytes ++ tail)
    (hlimit : (items.flatMap bytes).length ≤ limit) :
    ∃ w', readUntil element (c.pos + (items.flatMap bytes).length) limit c =
      .ok (items.map value) { c with pos := c.pos + (items.flatMap bytes).length, wireType := w' } := by
  induction items generalizing limit c with
  | nil =>
    refine ⟨c.wireType, ?_⟩
    cases limit with
    | zero => rfl
    | succ limit => simp [readUntil, bind_apply]
  | cons i items ih =>
    obtain ⟨hne, hfirst⟩ := hitems i (by simp)
    have hpos := List.length_pos_iff.2 hne
    rw [List.flatMap_cons, List.length_append] at hlimit ⊢
    rw [List.flatMap_cons, List.append_assoc] at hrest
    obtain ⟨w₁, hfirst⟩ := hfirst c.wireType c _ rfl hrest
    cases limit with
    | zero => omega
    | succ limit =>
      obtain ⟨w₂, hothers⟩ := ih (fun j hj => hitems j (by simp [hj])) limit
        (rest_behind hrest w₁) (by omega)
      refine ⟨w₂, ?_⟩
      simp only [Nat.add_assoc] at hothers
      rw [readUntil, bind_apply, get_apply]
      simp only
      rw [if_pos (by omega), bind_of_ok hfirst, bind_of_ok hothers]
      rfl

/-- A packed run adds its values. -/
theorem takes_packedValues_run {ι : Type} {coding : Wire.Coding} {signed : Bool} {items : List ι}
    {bytes : ι → List UInt8} {value : ι → Value}
    (hitems : ∀ i ∈ items, bytes i ≠ [] ∧ ∀ w, Takes w (readAs coding signed) (bytes i) (value i))
    (hlength : (items.flatMap bytes).length < 2 ^ 64) :
    Takes (.int 2) (packedValues coding signed)
      (Wire.varint (items.flatMap bytes).length ++ items.flatMap bytes) (items.map value) := by
  intro c tail hw hrest
  rw [List.append_assoc] at hrest
  obtain ⟨w₁, hsize⟩ := takes_readVarint hlength c _ hw hrest
  obtain ⟨w₂, hrun⟩ := readUntil_takes hitems _ (rest_behind hrest w₁) (Nat.le_refl _)
  refine ⟨w₂, ?_⟩
  rw [packedValues, bind_apply, get_apply]
  simp only [isDelimited_of_wireType hw, Bool.not_true, Bool.false_eq_true, if_false]
  rw [bind_of_ok hsize, bind_apply, get_apply]
  simp only
  rw [Nat.add_comm, hrun, List.length_append, Nat.add_assoc]

/-- A field of another wire type adds one value. -/
theorem takes_packedValues_single {coding : Wire.Coding} {signed : Bool} {bytes : List UInt8} {v : Value}
    (hw : w.equals (.int 2) = false) (h : Takes w (readAs coding signed) bytes v) :
    Takes w (packedValues coding signed) bytes [v] := by
  intro c tail hc hrest
  obtain ⟨w', hv⟩ := h c tail hc hrest
  refine ⟨w', ?_⟩
  rw [packedValues, bind_apply, get_apply]
  simp only [isDelimited, hc, hw, Bool.not_false, if_true]
  rw [bind_of_ok hv]
  rfl

/-! ## Fields -/

section

variable {σ : Type} {onField : Nat → σ → Run σ}

/-- A key and what the body takes for it. The body takes something, so the field is not skipped. -/
theorem takes_readNext {key : Nat} {front payload : List UInt8} {acc acc' : σ}
    (hkey : Takes w readVarint front key) (hne : payload ≠ [])
    (h : Takes (.int (key % 8 : Nat)) (onField (key / 8) acc) payload acc') :
    Takes w (readNext onField acc) (front ++ payload) acc' := by
  intro c tail hw hrest
  rw [List.append_assoc] at hrest
  obtain ⟨w₁, hread⟩ := hkey c _ hw hrest
  obtain ⟨w₂, hbody⟩ := h _ tail rfl (rest_behind hrest (.int (key % 8 : Nat)))
  have hpos := List.length_pos_iff.2 hne
  refine ⟨w₂, ?_⟩
  rw [readNext, bind_of_ok hread, bind_apply, get_apply]
  simp only
  rw [bind_apply]
  simp only [setWireType]
  rw [bind_of_ok hbody, bind_apply, get_apply]
  simp only
  rw [if_neg (by omega), List.length_append, Nat.add_assoc]
  rfl

/-- A key that the body does not know, and what is skipped for it. -/
theorem takes_readNext_skip {key : Nat} {front payload : List UInt8} {acc : σ}
    (hkey : Takes w readVarint front key) (hskip : ∀ w, Takes w (skip key) payload ())
    (h : onField (key / 8) acc = pure acc) :
    Takes w (readNext onField acc) (front ++ payload) acc := by
  intro c tail hw hrest
  rw [List.append_assoc] at hrest
  obtain ⟨w₁, hread⟩ := hkey c _ hw hrest
  obtain ⟨w₂, hskipped⟩ := hskip _ _ tail rfl (rest_behind hrest (.int (key % 8 : Nat)))
  refine ⟨w₂, ?_⟩
  rw [readNext, bind_of_ok hread, bind_apply, get_apply]
  simp only
  rw [bind_apply]
  simp only [setWireType, h]
  rw [bind_apply, pure_apply]
  simp only
  rw [bind_apply, get_apply]
  simp only [if_true]
  rw [bind_of_ok hskipped, List.length_append, Nat.add_assoc]
  rfl

/-- A loop over fields takes a stream of them and stops behind it. -/
theorem readFieldsUntil_takes {bytes : List UInt8} {acc acc' : σ}
    (h : Streams (readNext onField) bytes acc acc') (limit : Nat) {c : Cursor} {tail : List UInt8}
    (hrest : c.rest = bytes ++ tail) (hlimit : bytes.length ≤ limit) :
    ∃ w', readFieldsUntil onField (c.pos + bytes.length) limit acc c =
      .ok acc' { c with pos := c.pos + bytes.length, wireType := w' } := by
  induction h generalizing limit c with
  | nil acc =>
    refine ⟨c.wireType, ?_⟩
    cases limit with
    | zero => rfl
    | succ limit => simp [readFieldsUntil, bind_apply]
  | @cons _ _ _ bytes rest hne hfirst _ ih =>
    have hpos := List.length_pos_iff.2 hne
    rw [List.length_append] at hlimit ⊢
    rw [List.append_assoc] at hrest
    obtain ⟨w₁, hfirst⟩ := hfirst c.wireType c _ rfl hrest
    cases limit with
    | zero => omega
    | succ limit =>
      obtain ⟨w₂, hothers⟩ := ih limit (rest_behind hrest w₁) (by omega)
      refine ⟨w₂, ?_⟩
      simp only [Nat.add_assoc] at hothers
      rw [readFieldsUntil, bind_apply, get_apply]
      simp only
      rw [if_pos (by omega), bind_of_ok hfirst, hothers]

/-- Fields one after the other are read up to where they end. -/
theorem readFields_takes {bytes : List UInt8} {acc acc' : σ}
    (h : Streams (readNext onField) bytes acc acc') {stop : Value} {c : Cursor} {tail : List UInt8}
    (hrest : c.rest = bytes ++ tail) (hstop : stopAt stop c = .ok (c.pos + bytes.length)) :
    ∃ w', readFields onField stop acc c =
      .ok acc' { c with pos := c.pos + bytes.length, wireType := w' } := by
  obtain ⟨w', hfields⟩ := readFieldsUntil_takes h bytes.length hrest (Nat.le_refl _)
  refine ⟨w', ?_⟩
  rw [readFields, bind_apply, get_apply]
  simp only [hstop, lift_ok_bind]
  rw [readFieldsTo, bind_apply, get_apply]
  simp only [Nat.add_sub_cancel_left]
  exact hfields

end

end Cursor

end ProtoScribe
