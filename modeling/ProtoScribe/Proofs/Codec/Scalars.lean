import ProtoScribe.Codec.Conform
import ProtoScribe.Codec.Normal
import ProtoScribe.Proofs.Binary64
import ProtoScribe.Proofs.Cursor.Transfer

/-!
# Built-in types on the wire

The bytes of a value of a built-in type are what its writer appends (`appends_write`), and its reader
makes the normal form of the value of them (`takes_readAs`). There are as many of them as `valueSize`
says (`valueBytes_length`). The normal form is the value itself, but for NaN (`normalScalar_eq`).

Whatever the bytes are, a reader that succeeds ends with a value of its type in normal form
(`yields_readAs`).
-/

namespace ProtoScribe.Codec

open Run

variable {t : Scalar} {v : Value} {w : Value}

/-! ## Values of a type -/

theorem inRange_int {low high n : Int} : inRange low high (.int n) = true ↔ low ≤ n ∧ n < high := by
  simp [inRange]

theorem of_inRange {low high : Int} (h : inRange low high v = true) :
    ∃ n, v = .int n ∧ low ≤ n ∧ n < high := by
  unfold inRange at h
  split at h
  · next n =>
    simp only [Bool.and_eq_true, decide_eq_true_eq] at h
    exact ⟨n, rfl, h⟩
  · cases h

/-- What has single precision can be narrowed. -/
theorem narrow?_of_isSingle {x : Binary64} (h : isSingle x = true) : ∃ bits, x.narrow? = some bits := by
  unfold isSingle at h
  by_cases hnan : x.isNaN = true
  · simp only [Binary64.narrow?, hnan, if_true]
    exact ⟨_, rfl⟩
  · rw [Bool.not_eq_true] at hnan
    rw [hnan, Bool.false_or] at h
    split at h
    · next bits hbits => exact ⟨bits, hbits⟩
    · cases h

/-- Every value is written as a number of 64 bits. -/
theorem numberOf_lt (coding : Wire.Coding) (v : Value) : numberOf coding v < 2 ^ 64 := by
  unfold numberOf
  split <;> omega

/-! ## Sizes -/

theorem varintSize_pos (n : Nat) : 0 < varintSize n := Nat.succ_pos _

/-- The predicted size of a value is the length of its bytes. -/
theorem valueBytes_length (coding : Wire.Coding) (hlength : isLength (contentOf v).length = true) :
    (valueBytes coding v).length = valueSize coding v := by
  have hnumber := Wire.varint_length (numberOf_lt coding v)
  have hcontent := Wire.varint_length (of_decide_eq_true hlength)
  cases coding with
  | varint | svarint | boolean => exact hnumber
  | fixed32 | sfixed32 | fixed64 | sfixed64 => exact Wire.littleEndian_length _ _
  | float | double => cases v <;> exact Wire.littleEndian_length _ _
  | bytes | string =>
    simp only [valueBytes, valueSize, List.length_append]
    rw [hcontent]

/-- Every value takes a byte, so a run has no more values than bytes. -/
theorem valueBytes_ne_nil (coding : Wire.Coding) (hlength : isLength (contentOf v).length = true) :
    valueBytes coding v ≠ [] := by
  have hsize : 0 < valueSize coding v := by
    cases coding with
    | varint | svarint | boolean => exact varintSize_pos _
    | fixed32 | sfixed32 | fixed64 | sfixed64 | float | double => simp [valueSize]
    | bytes | string => exact Nat.add_pos_left (varintSize_pos _) _
  rw [← valueBytes_length coding hlength] at hsize
  exact List.ne_nil_of_length_pos hsize

/-! ## Writing -/

/-- An integer in the range of a fixed-width format is written as its lowest bytes. -/
theorem fixedBytes_eq {size : Nat} {signed : Bool} {n : Int} (hsize : size = 4 ∨ size = 8)
    (hlow : (if signed then -((2 ^ (8 * size - 1) : Nat) : Int) else 0) ≤ n)
    (hhigh : n < if signed then ((2 ^ (8 * size - 1) : Nat) : Int) else ((2 ^ (8 * size) : Nat) : Int)) :
    Wire.fixedBytes size signed (.int n) = .ok (Wire.littleEndian size (n % 2 ^ 64).toNat) := by
  have hbytes : Wire.littleEndian size (n % (2 ^ (8 * size) : Nat)).toNat =
      Wire.littleEndian size (n % 2 ^ 64).toNat := by
    have hlowest := Wire.littleEndian_mod size (n % 2 ^ 64 : Int).toNat
    rw [← hlowest]
    congr 1
    rcases hsize with rfl | rfl <;> simp only [Nat.reduceMul, Nat.reducePow] <;> omega
  simp only [Wire.fixedBytes, Value.strictInteger?]
  rw [if_pos ⟨hlow, hhigh⟩, hbytes]

theorem appends_fixed {size : Nat} {signed : Bool} {n : Int} {bytes : List UInt8}
    (h : Wire.fixedBytes size signed (.int n) = .ok bytes) :
    Appends (Cursor.lift (Wire.fixedBytes size signed (.int n)) >>= Cursor.append) bytes := by
  rw [h]
  exact Cursor.appends_append _

theorem appends_bytes (b : List UInt8) :
    Appends (Cursor.writeBytes (.bytes b)) (Wire.varint b.length ++ b) :=
  Appends.bind (Cursor.appends_append _) (Cursor.appends_append b)

/-- A value of its type is written without a fault, as its bytes. -/
theorem appends_write (h : isOf t v = true) : Appends (Cursor.write t.coding v) (valueBytes t.coding v) := by
  cases t with
  | int32 | int64 | uint32 | uint64 | enum =>
    obtain ⟨n, rfl, -⟩ := of_inRange h
    have hbytes : valueBytes .varint (.int n) = Wire.varint n := Wire.varint_emod n
    show Appends (Cursor.writeVarint n) (valueBytes .varint (.int n))
    rw [hbytes]
    exact Cursor.appends_append _
  | sint32 | sint64 =>
    obtain ⟨n, rfl, -⟩ := of_inRange h
    have hbytes : valueBytes .svarint (.int n) = Wire.varint (Wire.zigzag n) := Wire.varint_emod _
    show Appends (Cursor.writeVarint (Wire.zigzag n)) (valueBytes .svarint (.int n))
    rw [hbytes]
    exact Cursor.appends_append _
  | bool =>
    cases v with
    | bool b => cases b <;> exact Cursor.appends_append _
    | _ => cases h
  | fixed32 =>
    obtain ⟨n, rfl, hlow, hhigh⟩ := of_inRange h
    exact appends_fixed (fixedBytes_eq (.inl rfl) hlow hhigh)
  | sfixed32 =>
    obtain ⟨n, rfl, hlow, hhigh⟩ := of_inRange h
    exact appends_fixed (fixedBytes_eq (.inl rfl) hlow hhigh)
  | fixed64 =>
    obtain ⟨n, rfl, hlow, hhigh⟩ := of_inRange h
    exact appends_fixed (fixedBytes_eq (.inr rfl) hlow hhigh)
  | sfixed64 =>
    obtain ⟨n, rfl, hlow, hhigh⟩ := of_inRange h
    exact appends_fixed (fixedBytes_eq (.inr rfl) hlow hhigh)
  | double =>
    cases v with
    | float x => exact Cursor.appends_append _
    | _ => cases h
  | float =>
    cases v with
    | float x =>
      obtain ⟨bits, hbits⟩ := narrow?_of_isSingle h
      show Appends (Cursor.lift (Wire.floatBytes (.float x)) >>= Cursor.append) (valueBytes .float (.float x))
      simp only [Wire.floatBytes, Wire.toBinary64, hbits, valueBytes, Option.getD_some, lift_ok_bind]
      exact Cursor.appends_append _
    | _ => cases h
  | bytes =>
    cases v with
    | bytes b => exact appends_bytes b
    | _ => cases h
  | string =>
    cases v with
    | str s => exact appends_bytes (Cursor.encodeText s)
    | _ => cases h

/-! ## Reading -/

/-- A value that is made of the number in a varint. -/
theorem takes_number {f : Nat → Value} {n : Nat} (hn : n < 2 ^ 64) (hv : f n = v) :
    Takes w (Cursor.readVarint >>= fun n => pure (f n)) (Wire.varint n) v := by
  rw [← hv]
  exact (Cursor.takes_readVarint hn).map f

/-- A value that is made of the number in a fixed-width field. -/
theorem takes_fixed {f : Nat → Value} {size n : Nat} (hsize : 0 < size) (hv : f (n % 256 ^ size) = v) :
    Takes w (Cursor.readFixed size >>= fun n => pure (f n)) (Wire.littleEndian size n) v := by
  rw [← hv]
  exact (Cursor.takes_readFixed hsize n).map f

theorem readAs_signed : Cursor.readAs .varint true =
    Cursor.readVarint >>= fun n => pure (.int (Wire.twosComplement 64 n)) := by
  rw [Cursor.readAs, if_pos ⟨rfl, rfl⟩, Cursor.readSigned, bind_assoc]
  simp only [pure_bind]

theorem takes_text {s : String} (hlength : (Cursor.encodeText s).length < 2 ^ 64) :
    Takes w (Cursor.read .string)
      (Wire.varint (Cursor.encodeText s).length ++ Cursor.encodeText s) (.str s) := by
  have hread : Cursor.read .string = Cursor.readBytes >>= fun bytes =>
      Cursor.lift (Cursor.decodeText bytes) >>= fun s => pure (.str s) := rfl
  rw [hread, ← List.append_nil (_ ++ _)]
  refine (Cursor.takes_readBytes hlength).bind fun w => ?_
  rw [Cursor.decodeText_encodeText, lift_ok_bind]
  exact .pure _

/-- A value is read back in its normal form. -/
theorem takes_readAs (h : isOf t v = true) (hlength : isLength (contentOf v).length = true) :
    Takes w (Cursor.readAs t.coding t.signed) (valueBytes t.coding v) (normalScalar t v) := by
  cases t with
  | int32 | int64 | enum =>
    obtain ⟨n, rfl, hlow, hhigh⟩ := of_inRange h
    show Takes w (Cursor.readAs .varint true) (Wire.varint (n % 2 ^ 64).toNat) (.int n)
    rw [readAs_signed]
    exact takes_number (by omega) (congrArg Value.int (Wire.twosComplement_emod hlow hhigh))
  | uint32 | uint64 =>
    obtain ⟨n, rfl, hlow, hhigh⟩ := of_inRange h
    show Takes w (Cursor.read .varint) (Wire.varint (n % 2 ^ 64).toNat) (.int n)
    exact takes_number (by omega) (congrArg Value.int (by omega))
  | sint32 | sint64 =>
    obtain ⟨n, rfl, hlow, hhigh⟩ := of_inRange h
    obtain ⟨hnonneg, hlt⟩ := Wire.zigzag_bounds hlow hhigh
    have hnumber : ((Wire.zigzag n % 2 ^ 64).toNat : Int) = Wire.zigzag n := by omega
    show Takes w (Cursor.read .svarint) (Wire.varint (Wire.zigzag n % 2 ^ 64).toNat) (.int n)
    exact takes_number (by omega) (congrArg Value.int (by rw [hnumber, Wire.unzigzag_zigzag]))
  | bool =>
    cases v with
    | bool b => cases b <;> exact takes_number (numberOf_lt .boolean _) rfl
    | _ => cases h
  | fixed32 =>
    obtain ⟨n, rfl, hlow, hhigh⟩ := of_inRange h
    show Takes w (Cursor.read .fixed32) (Wire.littleEndian 4 (n % 2 ^ 64).toNat) (.int n)
    exact takes_fixed (by decide) (congrArg Value.int (by omega))
  | sfixed32 =>
    obtain ⟨n, rfl, hlow, hhigh⟩ := of_inRange h
    have hbits : (n % 2 ^ 64).toNat % 256 ^ 4 = (n % 2 ^ (31 + 1)).toNat := by omega
    show Takes w (Cursor.read .sfixed32) (Wire.littleEndian 4 (n % 2 ^ 64).toNat) (.int n)
    exact takes_fixed (by decide)
      (congrArg Value.int (by rw [hbits]; exact Wire.twosComplement_emod hlow hhigh))
  | fixed64 =>
    obtain ⟨n, rfl, hlow, hhigh⟩ := of_inRange h
    show Takes w (Cursor.read .fixed64) (Wire.littleEndian 8 (n % 2 ^ 64).toNat) (.int n)
    exact takes_fixed (by decide) (congrArg Value.int (by omega))
  | sfixed64 =>
    obtain ⟨n, rfl, hlow, hhigh⟩ := of_inRange h
    have hbits : (n % 2 ^ 64).toNat % 256 ^ 8 = (n % 2 ^ (63 + 1)).toNat := by omega
    show Takes w (Cursor.read .sfixed64) (Wire.littleEndian 8 (n % 2 ^ 64).toNat) (.int n)
    exact takes_fixed (by decide)
      (congrArg Value.int (by rw [hbits]; exact Wire.twosComplement_emod hlow hhigh))
  | double =>
    cases v with
    | float x =>
      have hlt : x.bits.toNat < 256 ^ 8 := x.bits.toNat_lt
      have hbits : UInt64.ofNat (x.bits.toNat % 256 ^ 8) = x.bits := by
        rw [Nat.mod_eq_of_lt hlt, UInt64.ofNat_toNat]
      show Takes w (Cursor.read .double) (Wire.littleEndian 8 x.bits.toNat) (.float x)
      exact takes_fixed (by decide) (by rw [hbits])
    | _ => cases h
  | float =>
    cases v with
    | float x =>
      obtain ⟨bits, hnarrow⟩ := narrow?_of_isSingle h
      have hlt : bits.toNat < 256 ^ 4 := bits.toNat_lt
      have hbits : UInt32.ofNat (bits.toNat % 256 ^ 4) = bits := by
        rw [Nat.mod_eq_of_lt hlt, UInt32.ofNat_toNat]
      have hbytes : valueBytes .float (.float x) = Wire.littleEndian 4 bits.toNat := by
        rw [valueBytes, hnarrow, Option.getD_some]
      have hnormal : normalScalar .float (.float x) = .float (Binary64.widen bits) := by
        rw [normalScalar, hnarrow, Option.map_some, Option.getD_some]
      show Takes w (Cursor.read .float) (valueBytes .float (.float x)) (normalScalar .float (.float x))
      rw [hbytes, hnormal]
      exact takes_fixed (by decide) (by rw [hbits])
    | _ => cases h
  | bytes =>
    cases v with
    | bytes b => exact (Cursor.takes_readBytes (of_decide_eq_true hlength)).map _
    | _ => cases h
  | string =>
    cases v with
    | str s => exact takes_text (of_decide_eq_true hlength)
    | _ => cases h

/-! ## Arbitrary bytes -/

theorem yields_readVarint : Yields (· < 2 ^ 64) Fault.IsWire Cursor.readVarint := fun c =>
  (Cursor.readVarint_ends c).imp (fun _ _ h => ⟨h.1, h.2.1⟩) (fun _ _ h => ⟨.inl h.1, h.2⟩)

theorem yields_readFixed {size : Nat} (h : 0 < size) :
    Yields (· < 256 ^ size) Fault.IsWire (Cursor.readFixed size) := by
  intro c
  have hreads := (Cursor.advances_readFixed h).reads c
  refine .intro (fun n c' hn => ⟨?_, hreads.of_ok hn⟩) (fun e c' he => hreads.of_error he)
  unfold Cursor.readFixed at hn
  split at hn
  · cases hn
  · cases hn
    refine Nat.lt_of_lt_of_le (Wire.ofLittleEndian_lt _) (Nat.pow_le_pow_right (by decide) ?_)
    exact List.length_take_le _ _

/-- A widened number has single precision and is its own normal form. -/
theorem isOf_widen (bits : UInt32) : isOf .float (.float (.widen bits)) = true ∧
    normalScalar .float (.float (.widen bits)) = .float (.widen bits) := by
  obtain ⟨quiet, hnarrow, hwiden⟩ := Binary64.exists_narrow?_widen bits
  constructor
  · simp [isOf, isSingle, hnarrow, hwiden]
  · rw [normalScalar, hnarrow, Option.map_some, Option.getD_some, hwiden]

/-- Whatever the bytes, what is read is a value of the type, in normal form. -/
theorem yields_readAs (t : Scalar) :
    Yields (fun v => isOf t v = true ∧ normalScalar t v = v) Fault.IsWire
      (Cursor.readAs t.coding t.signed) := by
  cases t with
  | int32 | int64 | enum =>
    show Yields _ _ (Cursor.readAs .varint true)
    rw [readAs_signed]
    exact yields_readVarint.bind fun n hn => .pure ⟨inRange_int.2 (Wire.twosComplement_bounds hn), rfl⟩
  | uint32 | uint64 =>
    refine yields_readVarint.bind fun n hn => .pure ⟨?_, rfl⟩
    simp only [isOf, inRange_int]
    omega
  | sint32 | sint64 =>
    exact yields_readVarint.bind fun n hn => .pure ⟨inRange_int.2 (Wire.unzigzag_bounds hn), rfl⟩
  | bool => exact yields_readVarint.bind fun n _ => .pure ⟨rfl, rfl⟩
  | fixed32 | fixed64 =>
    refine (yields_readFixed (by decide)).bind fun n hn => .pure ⟨?_, rfl⟩
    simp only [isOf, inRange_int]
    omega
  | sfixed32 =>
    refine (yields_readFixed (by decide)).bind fun n hn => .pure ⟨inRange_int.2 ?_, rfl⟩
    exact Wire.twosComplement_bounds (show n < 2 ^ (31 + 1) by omega)
  | sfixed64 =>
    refine (yields_readFixed (by decide)).bind fun n hn => .pure ⟨inRange_int.2 ?_, rfl⟩
    exact Wire.twosComplement_bounds (show n < 2 ^ (63 + 1) by omega)
  | double => exact (yields_readFixed (by decide)).bind fun n _ => .pure ⟨rfl, rfl⟩
  | float => exact (yields_readFixed (by decide)).bind fun n _ => .pure (isOf_widen _)
  | bytes => exact Cursor.advances_readBytes.reads.yields.bind fun b _ => .pure ⟨rfl, rfl⟩
  | string =>
    refine Cursor.advances_readBytes.reads.yields.bind fun b _ => ?_
    exact (Reads.lift fun _ => Cursor.decodeText_error).yields.bind fun s _ => .pure ⟨rfl, rfl⟩

/-! ## Normal forms -/

/-- A value of a built-in type is its own normal form, unless it is a NaN of single precision, which
stays one. -/
theorem normalScalar_eq (h : isOf t v = true) : normalScalar t v = v ∨
    ∃ x y, v = .float x ∧ normalScalar t v = .float y ∧ x.isNaN = true ∧ y.isNaN = true := by
  unfold normalScalar
  split
  · next x =>
    obtain ⟨bits, hbits⟩ := narrow?_of_isSingle h
    rw [hbits, Option.map_some, Option.getD_some]
    by_cases hnan : x.isNaN = true
    · exact .inr ⟨x, _, rfl, rfl, hnan, (Binary64.narrow?_widen_narrow hnan hbits).1⟩
    · simp only [isOf, isSingle, hnan, hbits, Bool.false_or, decide_eq_true_eq] at h
      exact .inl (congrArg Value.float h)
  · exact .inl rfl

/-- A value and its normal form have the same bytes: what a NaN loses is not written. -/
theorem valueBytes_normalScalar (h : isOf t v = true) :
    valueBytes t.coding (normalScalar t v) = valueBytes t.coding v := by
  unfold normalScalar
  split
  · next x =>
    obtain ⟨bits, hbits⟩ := narrow?_of_isSingle h
    rw [hbits, Option.map_some, Option.getD_some]
    by_cases hnan : x.isNaN = true
    · have hback := (Binary64.narrow?_widen_narrow hnan hbits).2
      simp only [Scalar.coding, valueBytes, hbits, hback]
    · simp only [isOf, isSingle, hnan, hbits, Bool.false_or, decide_eq_true_eq] at h
      rw [h]
  · rfl

/-- Normal forms take as many bytes. -/
theorem valueSize_normalScalar (t : Scalar) (v : Value) :
    valueSize t.coding (normalScalar t v) = valueSize t.coding v := by
  unfold normalScalar
  split <;> rfl

end ProtoScribe.Codec
