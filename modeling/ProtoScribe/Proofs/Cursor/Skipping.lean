import ProtoScribe.Cursor.Method
import ProtoScribe.Proofs.Cursor.Emission
import ProtoScribe.Proofs.Outcome

/-!
# Skipping agrees with reading and writing

A field that nobody asks for is skipped by the wire type of its key. Skipping checks bounds on its own,
apart from the readers, and still gets exactly as far as they do: `Run.SameExtent x y` says that from
every cursor `x` and `y` both succeed, or both fail on malformed bytes, and that they leave the same
cursor behind. So what stands behind a field does not depend on whether the field was read or skipped.

From the other side, a field writer writes whatever it accepts as a key and a complete `Payload` of the
wire type that the key announces, and so does the writer of a packed run. Such bytes are skipped to their
end, whatever follows them. `skipping_agrees_with_reading` states both.
-/

namespace ProtoScribe

namespace Run

variable {α β γ : Type}

/-! ## Runs that get equally far -/

/-- Two readers that get equally far: from every cursor both succeed, or both fail on malformed bytes, and
they leave the same cursor behind. -/
def SameExtent (x : Run α) (y : Run β) : Prop :=
  ∀ c, (∃ a b c', x c = .ok a c' ∧ y c = .ok b c') ∨
    ∃ e e' c', x c = .error e c' ∧ y c = .error e' c' ∧ e.kind = .decode ∧ e'.kind = .decode

variable {x : Run α} {y : Run β}

theorem SameExtent.refl (h : Fails (·.kind = .decode) x) : SameExtent x x := by
  intro c
  cases hx : x c with
  | ok a c' => exact .inl ⟨a, a, c', rfl, rfl⟩
  | error e c' =>
    have he : e.kind = .decode := (h c).of_error hx
    exact .inr ⟨e, e, c', rfl, rfl, he, he⟩

/-- The faults on both sides are of one kind, so neither side is special. -/
theorem SameExtent.symm (h : SameExtent x y) : SameExtent y x := by
  intro c
  obtain ⟨a, b, c', hx, hy⟩ | ⟨e, e', c', hx, hy, he, he'⟩ := h c
  · exact .inl ⟨b, a, c', hy, hx⟩
  · exact .inr ⟨e', e, c', hy, hx, he', he⟩

/-- What is made of the result does not matter. -/
theorem SameExtent.map_right (h : SameExtent x y) (g : β → γ) :
    SameExtent x (y >>= fun b => pure (g b)) := by
  intro c
  obtain ⟨a, b, c', hx, hy⟩ | ⟨e, e', c', hx, hy, hkinds⟩ := h c
  · exact .inl ⟨a, g b, c', hx, bind_of_ok hy⟩
  · exact .inr ⟨e, e', c', hx, bind_of_error hy, hkinds⟩

theorem SameExtent.map_left (h : SameExtent x y) (f : α → γ) :
    SameExtent (x >>= fun a => pure (f a)) y :=
  (h.symm.map_right f).symm

/-- Behind a common start, runs that get equally far do so from wherever that got to. -/
theorem SameExtent.behind {f : α → Run β} {g : α → Run γ} (hx : Fails (·.kind = .decode) x)
    (h : ∀ a, SameExtent (f a) (g a)) : SameExtent (x >>= f) (x >>= g) := by
  intro c
  cases hc : x c with
  | ok a c₁ =>
    rw [bind_of_ok hc, bind_of_ok hc]
    exact h a c₁
  | error e c₁ =>
    have he : e.kind = .decode := (hx c).of_error hc
    exact .inr ⟨e, e, c₁, bind_of_error hc, bind_of_error hc, he, he⟩

/-- Two moves to one position, which is out of reach for both or for none. -/
theorem sameExtent_bounded {stop : Cursor → Nat} {fault fault' : Cursor → Fault} {value : Cursor → α}
    {value' : Cursor → β} (h : ∀ c, (fault c).kind = .decode) (h' : ∀ c, (fault' c).kind = .decode) :
    SameExtent
      (fun c => if c.length < stop c then .error (fault c) c else .ok (value c) { c with pos := stop c })
      (fun c => if c.length < stop c then .error (fault' c) c
        else .ok (value' c) { c with pos := stop c }) := by
  intro c
  by_cases hstop : c.length < stop c
  · exact .inr ⟨fault c, fault' c, c, if_pos hstop, if_pos hstop, h c, h' c⟩
  · exact .inl ⟨value c, value' c, { c with pos := stop c }, if_neg hstop, if_neg hstop⟩

end Run

/-! ## Bytes of fixed width -/

namespace Wire

/-- A value that is accepted takes exactly the bytes of its format. -/
theorem length_of_fixedBytes {size : Nat} {signed : Bool} {v : Value} {bytes : List UInt8}
    (h : fixedBytes size signed v = .ok bytes) : bytes.length = size := by
  unfold fixedBytes at h
  split at h
  · cases h
  · cases signed with
    | true | false =>
      simp only [reduceIte, Bool.false_eq_true] at h
      split at h
      · cases h
        exact littleEndian_length size _
      · cases h

theorem length_of_doubleBytes {v : Value} {bytes : List UInt8} (h : doubleBytes v = .ok bytes) :
    bytes.length = 8 := by
  obtain ⟨x, -, rfl⟩ := Outcome.map_ok h
  exact littleEndian_length 8 _

theorem length_of_floatBytes {v : Value} {bytes : List UInt8} (h : floatBytes v = .ok bytes) :
    bytes.length = 4 := by
  unfold floatBytes at h
  split at h
  · cases h
  · split at h
    · cases h
      exact littleEndian_length 4 _
    · cases h

end Wire

namespace Cursor

open Run

/-! ## Skipping and reading -/

theorem fails_readVarint : Fails (·.kind = .decode) readVarint := fun c =>
  (readVarint_ends c).imp (fun _ _ _ => trivial) (fun _ _ h => h.1)

/-- Jumping over a value checks the same bound as reading it. -/
theorem sameExtent_jump_readFixed (wireType size : Nat) :
    SameExtent (do jump wireType ((← get).pos + size)) (readFixed size) :=
  sameExtent_bounded (fun _ => rfl) (fun _ => rfl)

/-- Both read the length first, and check the same bound behind it. -/
theorem sameExtent_jump_readBytes (wireType : Nat) :
    SameExtent (do let size ← readVarint; jump wireType (size + (← get).pos)) readBytes :=
  .behind fails_readVarint fun _ => sameExtent_bounded (fun _ => rfl) (fun _ => rfl)

theorem readAs_unsigned (coding : Wire.Coding) : readAs coding false = read coding := if_neg (by simp)

/-- A field is skipped as far as any reader of its wire type reads. Texts are left out: reading one may
still fail when all its bytes have been taken. -/
theorem sameExtent_skip {key : Nat} {coding : Wire.Coding} (hcoding : coding ≠ .string)
    (hkey : key % 8 = coding.wireType) (signed : Bool) :
    SameExtent (skip key) (readAs coding signed) := by
  have hvarint : SameExtent (discard readVarint) readVarint :=
    (SameExtent.refl fails_readVarint).map_left _
  unfold skip
  rw [hkey]
  -- the coding settles which branch is skipped by and which reader reads
  cases coding with
  | varint =>
    cases signed with
    | true => exact (hvarint.map_right _).map_right _
    | false => exact hvarint.map_right _
  | svarint | boolean => exact hvarint.map_right _
  | fixed32 | sfixed32 | float => exact (sameExtent_jump_readFixed 5 4).map_right _
  | fixed64 | sfixed64 | double => exact (sameExtent_jump_readFixed 1 8).map_right _
  | bytes => exact (sameExtent_jump_readBytes 2).map_right _
  | string => exact absurd rfl hcoding

/-- The wire types that fields are written with. -/
def wireTypes : List Nat := [0, 1, 2, 5]

/-- Every wire type in use belongs to a coding other than text, which alone may refuse its bytes. -/
theorem exists_coding {wireType : Nat} (h : wireType ∈ wireTypes) :
    ∃ coding : Wire.Coding, coding ≠ .string ∧ wireType = coding.wireType := by
  simp only [wireTypes, List.mem_cons, List.not_mem_nil, or_false] at h
  obtain rfl | rfl | rfl | rfl := h
  · exact ⟨.varint, by decide, rfl⟩
  · exact ⟨.fixed64, by decide, rfl⟩
  · exact ⟨.bytes, by decide, rfl⟩
  · exact ⟨.fixed32, by decide, rfl⟩

/-- The wire types of groups and the unused ones are refused. -/
theorem skip_of_unknown {key : Nat} (h : key % 8 ∉ wireTypes) :
    skip key = throw (.unknownWireType (key % 8)) := by
  unfold skip
  grind [wireTypes]

/-- Skipping takes at least one byte, because reading does. -/
theorem pos_lt_of_skip {key : Nat} {c c' : Cursor} (h : skip key c = .ok () c') : c.pos < c'.pos := by
  by_cases hknown : key % 8 ∈ wireTypes
  · obtain ⟨coding, hcoding, hkey⟩ := exists_coding hknown
    obtain ⟨u, v, c₁, hskip, hread⟩ | ⟨e, -, c₁, hskip, -⟩ := sameExtent_skip hcoding hkey false c
    · rw [hskip] at h
      cases h
      exact ((advances_readAs coding false c).of_ok hread).2
    · rw [hskip] at h
      cases h
  · rw [skip_of_unknown hknown] at h
    cases h

/-! ## Skipping and writing -/

/-- A writer that converts what it is given succeeds only if the conversion does. -/
theorem appends_of_lift {α : Type} {r : Except Fault α} {f : α → Run Unit} {bytes : List UInt8}
    (h : Appends (lift r >>= f) bytes) : ∃ a, r = .ok a ∧ Appends (f a) bytes := by
  cases r with
  | ok a => exact ⟨a, rfl, h⟩
  | error e => cases h .empty

theorem eq_ok_of_appends {r : Except Fault (List UInt8)} {bytes : List UInt8}
    (h : Appends (lift r >>= append) bytes) : r = .ok bytes := by
  obtain ⟨b, hb, h⟩ := appends_of_lift h
  rw [hb, h.unique (appends_append b)]

/-- Only byte strings are written as such: a length and the bytes. -/
theorem content_of_appends {v : Value} {bytes : List UInt8} (h : Appends (writeBytes v) bytes) :
    ∃ content, v = .bytes content ∧ bytes = Wire.varint content.length ++ content := by
  cases v with
  | bytes content => exact ⟨content, rfl, h.unique ((appends_append _).bind (appends_append content))⟩
  | none | bool _ | int _ | float _ | str _ | list _ | dict _ => cases h .empty

/-- What a value in a coding is written as can follow a key of the wire type of the coding. In front of
byte strings and texts this needs a length that is not cut off. -/
theorem payload_of_appends {coding : Wire.Coding} {v : Value} {bytes : List UInt8}
    (h : Appends (write coding v) bytes)
    (hlength : coding.wireType = 2 → (Codec.contentOf v).length < 2 ^ 64) :
    Payload coding.wireType bytes := by
  cases coding with
  | varint | svarint =>
    obtain ⟨n, -, h⟩ := appends_of_lift h
    rw [h.unique (appends_append _)]
    exact .varint (Wire.isVarint_varint _)
  | boolean =>
    rw [h.unique (appends_append _)]
    exact .varint (Wire.isVarint_varint _)
  | fixed32 | sfixed32 => exact .four (Wire.length_of_fixedBytes (eq_ok_of_appends h))
  | fixed64 | sfixed64 => exact .eight (Wire.length_of_fixedBytes (eq_ok_of_appends h))
  | float => exact .four (Wire.length_of_floatBytes (eq_ok_of_appends h))
  | double => exact .eight (Wire.length_of_doubleBytes (eq_ok_of_appends h))
  | bytes =>
    obtain ⟨content, rfl, rfl⟩ := content_of_appends h
    exact .framed (hlength rfl)
  | string =>
    obtain ⟨s, hs, h⟩ := appends_of_lift h
    obtain ⟨content, hcontent, rfl⟩ := content_of_appends h
    cases hcontent
    cases Value.toText_ok hs
    exact .framed (hlength rfl)

/-! ### Keys -/

/-- Of a tag only the integer matters. -/
theorem writeTag_of_integer {tag : Value} {t : Int} (h : tag.strictInteger? = some t) (wireType : Value) :
    writeTag tag wireType = writeTag (.int t) wireType := by
  have hint : (Value.int t).strictInteger? = some t := rfl
  simp only [writeTag, h, hint]

def skipNext : Run Value := do
  let key ← (Method.read .varint).call []
  Method.skip.call [key]

/-- Only the wire type of a key matters, so it may be any integer. -/
theorem call_skip {key : Value} {n : Int} (h : key.strictInteger? = some n) :
    Method.skip.call [key] = do skip (n % 8).toNat; return .none := by
  simp only [Method.call, h]

/-- A key and a payload of its wire type are skipped together. -/
theorem takes_skipNext {tag : Int} {w : Value} {wireType : Nat} {payload : List UInt8} (htag : 0 ≤ tag ∧ tag < 2 ^ 61)
    (hwire : wireType < 8) (h : Payload wireType payload) :
    Takes w skipNext (Wire.varint (Codec.keyNumber tag wireType) ++ payload) .none := by
  -- the wire type comes back out of the key, which is all that skipping looks at
  have hkey : ((Codec.keyNumber tag wireType : Int) % 8).toNat % 8 = wireType := by
    have hmod : Codec.keyNumber tag wireType % 8 = wireType := Codec.keyNumber_mod hwire
    omega
  refine ((takes_readVarint (Codec.keyNumber_lt htag hwire)).map fun n => Value.int n).bind fun w' => ?_
  rw [call_skip rfl]
  exact (takes_skip (by rwa [hkey])).map fun _ => Value.none

/-! ### Fields and packed runs -/

/-- A field that is written is a key and a payload of its wire type. -/
theorem writeField_of_ok {coding : Wire.Coding} {tag v : Value} {t : Int} {u : Unit} {c c' : Cursor}
    (htag : tag.strictInteger? = some t) (hrange : 0 ≤ t ∧ t < 2 ^ 61)
    (hlength : coding.wireType = 2 → (Codec.contentOf v).length < 2 ^ 64)
    (h : writeField coding tag v c = .ok u c') :
    ∃ payload, Payload coding.wireType payload ∧
      c' = { c with buf := c.buf ++
        (Wire.varint (Codec.keyNumber t coding.wireType) ++ payload) } := by
  have hkey := appends_writeTag hrange (Codec.wireType_lt coding)
  rw [writeField, writeTag_of_integer htag, bind_of_ok (hkey c)] at h
  obtain ⟨payload, happends, rfl⟩ := (writes_write coding v).appends_of_ok h
  exact ⟨payload, payload_of_appends happends hlength, by simp⟩

/-- A framed body that is written is a key, the length of the body, and the body. -/
theorem writeMessage_of_ok {tag : Value} {t : Int} {body : Run Unit} {u : Unit} {c c' : Cursor}
    (htag : tag.strictInteger? = some t) (hrange : 0 ≤ t ∧ t < 2 ^ 61) (hbody : Writes body)
    (h : writeMessage tag body c = .ok u c') :
    ∃ content, Appends body content ∧
      c' = { c with buf := c.buf ++
        (Wire.varint (Codec.keyNumber t 2) ++ (Wire.varint content.length ++ content)) } := by
  have hmessage : writeMessage tag body = writeMessage (.int t) body := by
    rw [writeMessage, writeMessage, writeTag_of_integer htag]
  rw [hmessage] at h
  obtain ⟨content, r, hemits⟩ := hbody
  cases r with
  | ok u' =>
    rw [appends_writeMessage hrange (emits_ok_iff.1 hemits) c] at h
    cases h
    exact ⟨content, hemits, rfl⟩
  | error e =>
    -- a body that fails is left without a length, and the whole fails with it
    have hkey : Emits (writeTag (.int t) (.int 2)) _ (.ok ()) := appends_writeTag hrange (by decide)
    cases ((hkey.bind (emits_writeFramed_error hemits)) c).symm.trans h

/-- A packed run that is written frames its items. -/
theorem writePacked_of_ok {coding : Wire.Coding} {tag v : Value} {t : Int} {u : Unit} {c c' : Cursor}
    (htag : tag.strictInteger? = some t) (hrange : 0 ≤ t ∧ t < 2 ^ 61) (hv : v.truthy = true)
    (h : writePacked coding tag v c = .ok u c') :
    ∃ items content, v.items? = some items ∧ Appends (writeEach coding items) content ∧
      c' = { c with buf := c.buf ++
        (Wire.varint (Codec.keyNumber t 2) ++ (Wire.varint content.length ++ content)) } := by
  rw [writePacked, if_pos hv] at h
  cases hitems : v.items? with
  | none =>
    rw [hitems] at h
    obtain ⟨content, hthrow, -⟩ := writeMessage_of_ok htag hrange (.throw _) h
    cases hthrow .empty
  | some items =>
    rw [hitems] at h
    obtain ⟨content, happends, hcursor⟩ := writeMessage_of_ok htag hrange (writes_writeEach coding items) h
    exact ⟨items, content, rfl, happends, hcursor⟩

/-- An operation without a result of its own succeeds where it is called with success. -/
theorem call_eq_ok {x : Run Unit} {v : Value} {c c' : Cursor}
    (h : (do x; return Value.none : Run Value) c = .ok v c') : x c = .ok () c' := by
  obtain ⟨u, c₁, hx, hpure⟩ := bind_eq_ok h
  cases hpure
  exact hx

/-! ## Both together -/

/-- Skipping agrees with reading and writing. Whatever integer the key is, a field is skipped exactly as far
as every reader of its wire type reads (a text apart, which may fail on its bytes), with success in the same
cases; a key of any other wire type is refused on the spot; and what is skipped is not empty. Whatever a
field writer accepts under a tag that fits a key, and whatever items a packed run is made of, the bytes that
are written, key included, are skipped to their end between any other bytes, if the length in front of a
text, a byte string or the items fits a varint. -/
theorem skipping_agrees_with_reading :
    (∀ (key : Value) (n : Int), key.strictInteger? = some n →
      (∀ coding, coding ≠ .string → n % 8 = coding.wireType →
        SameExtent (Method.skip.call [key]) ((Method.read coding).call [])) ∧
      (n % 8 = 0 → ∀ signed, SameExtent (Method.skip.call [key]) ((Method.read .varint).call [signed])) ∧
      (n % 8 ∉ [0, 1, 2, 5] → ∀ c, ∃ e, e.kind = .decode ∧ Method.skip.call [key] c = .error e c) ∧
      ∀ c v c', Method.skip.call [key] c = .ok v c' → c.pos < c'.pos) ∧
    ∀ (tag : Value) (t : Int), tag.strictInteger? = some t → 0 ≤ t → t < 2 ^ 61 →
      (∀ coding x c v c', (Method.writeField coding).call [tag, x] c = .ok v c' →
        (coding.wireType = 2 → (Codec.contentOf x).length < 2 ^ 64) →
        ∃ bytes, c' = { c with buf := c.buf ++ bytes } ∧ ∀ w, Takes w skipNext bytes .none) ∧
      ∀ coding xs c v c', xs.truthy = true → (Method.writePacked coding).call [tag, xs] c = .ok v c' →
        (∀ items content c₁, xs.items? = some items →
          (writeEach coding items >>= fun _ => finish) .empty = .ok content c₁ → content.length < 2 ^ 64) →
        ∃ bytes, c' = { c with buf := c.buf ++ bytes } ∧ ∀ w, Takes w skipNext bytes .none := by
  refine ⟨?_, ?_⟩
  · intro key n hkey
    rw [call_skip hkey]
    refine ⟨?_, ?_, ?_, ?_⟩
    · intro coding hcoding hwire
      apply SameExtent.map_left
      show SameExtent _ (read coding)
      rw [← readAs_unsigned]
      exact sameExtent_skip hcoding (by omega) false
    · intro hwire signed
      have hzero : (n % 8).toNat % 8 = Wire.Coding.varint.wireType := by
        rw [hwire]
        rfl
      apply SameExtent.map_left
      exact sameExtent_skip (by decide) hzero signed.truthy
    · intro hunknown c
      have hnot : (n % 8).toNat % 8 ∉ wireTypes := by
        simp only [wireTypes, List.mem_cons, List.not_mem_nil, or_false] at hunknown ⊢
        omega
      rw [skip_of_unknown hnot]
      exact ⟨_, rfl, rfl⟩
    · intro c v c' h
      exact pos_lt_of_skip (call_eq_ok h)
  · intro tag t htag hlow hhigh
    have hrange : 0 ≤ t ∧ t < 2 ^ 61 := ⟨hlow, hhigh⟩
    refine ⟨?_, ?_⟩
    · intro coding x c v c' h hlength
      obtain ⟨payload, hpayload, hcursor⟩ := writeField_of_ok htag hrange hlength (call_eq_ok h)
      exact ⟨_, hcursor, fun w => takes_skipNext hrange (Codec.wireType_lt coding) hpayload⟩
    · intro coding xs c v c' hxs h hlength
      obtain ⟨items, content, hitems, happends, hcursor⟩ := writePacked_of_ok htag hrange hxs (call_eq_ok h)
      obtain ⟨c₁, hfinish⟩ := appends_finish happends
      have hpayload := Payload.framed (hlength items content c₁ hitems hfinish)
      exact ⟨_, hcursor, fun w => takes_skipNext hrange (by decide) hpayload⟩

/-- A negative key of wire type 2 is skipped like bytes, one of wire type 0 like a signed varint, wire type 3
is refused, and a truth value as key skips eight bytes. A text under the highest tag, and a run of a
number, a numeral and a truth value, are skipped whole. -/
theorem written_run_is_skipped :
    SameExtent (Method.skip.call [.int (-6)]) ((Method.read .bytes).call []) ∧
    SameExtent (Method.skip.call [.int 8]) ((Method.read .varint).call [.bool true]) ∧
    (∃ e, e.kind = .decode ∧ Method.skip.call [.int 11] (ofBytes [1, 2]) = .error e (ofBytes [1, 2])) ∧
    (∃ c', Method.skip.call [.bool true] (ofBytes [1, 2, 3, 4, 5, 6, 7, 8, 9]) = .ok .none c' ∧ 0 < c'.pos) ∧
    (∀ w, Takes w skipNext [250, 255, 255, 255, 255, 255, 255, 255, 255, 1, 3, 110, 195, 169] .none) ∧
    ∀ w, Takes w skipNext [26, 4, 1, 172, 2, 1] .none := by
  obtain ⟨hskip, hwrite⟩ := skipping_agrees_with_reading
  have hfixed : Method.skip.call [.bool true] (ofBytes [1, 2, 3, 4, 5, 6, 7, 8, 9]) = .ok .none
      { ofBytes [1, 2, 3, 4, 5, 6, 7, 8, 9] with pos := 8 } := by rfl
  have htext : (Method.writeField .string).call [.int (2 ^ 61 - 1), .str "né"] .empty = .ok .none
      { empty with buf := [250, 255, 255, 255, 255, 255, 255, 255, 255, 1, 3, 110, 195, 169] } := by rfl
  have hrun : (Method.writePacked .varint).call [.int 3, .list [.int 1, .str "300", .bool true]] .empty =
      .ok .none { empty with buf := [26, 4, 1, 172, 2, 1] } := by rfl
  obtain ⟨hfields, -⟩ := hwrite (.int (2 ^ 61 - 1)) _ rfl (by decide) (by decide)
  obtain ⟨-, hruns⟩ := hwrite (.int 3) 3 rfl (by decide) (by decide)
  refine ⟨(hskip (.int (-6)) _ rfl).1 .bytes (by decide) (by decide),
    (hskip (.int 8) _ rfl).2.1 (by decide) _, (hskip (.int 11) _ rfl).2.2.1 (by decide) _,
    ⟨_, hfixed, (hskip (.bool true) 1 rfl).2.2.2 _ _ _ hfixed⟩, ?_, ?_⟩
  · obtain ⟨bytes, hbytes, htakes⟩ := hfields .string _ _ _ _ htext fun _ => by decide
    cases hbytes
    exact htakes
  · obtain ⟨bytes, hbytes, htakes⟩ := hruns .varint _ _ _ _ rfl hrun fun items content c₁ hitems hc => by
      cases hitems
      cases hc
      decide
    cases hbytes
    exact htakes

end Cursor

end ProtoScribe
