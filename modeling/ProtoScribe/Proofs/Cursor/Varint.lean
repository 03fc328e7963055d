import ProtoScribe.Proofs.Cursor.Transfer

/-!
# Varints on a cursor

Every integer, however large and of either sign, is written as one to ten bytes, and from these bytes it
is read back modulo `2 ^ 64`, whatever stands in front of them and behind them. No bytes that are read as
the same number are fewer. Reading fails only if the bytes break off inside a varint, or if ten of them
in a row ask for another one. Zigzag is a bijection between the integers and the naturals, so a signed
number of 64 bits survives it and the varint. `integers_survive_the_wire` collects this.
-/

namespace ProtoScribe.Cursor

open Run

/-- A cursor on some bytes, of which those in front have been read. -/
def between (front back : List UInt8) : Cursor := { ofBytes (front ++ back) with pos := front.length }

/-- What is left to read between two parts of the bytes is the second one. -/
theorem rest_between (front back : List UInt8) : (between front back).rest = back := by
  have hall : (front ++ back).take (front ++ back).length = front ++ back := List.take_length
  show ((front ++ back).take (front ++ back).length).drop front.length = back
  rw [hall, List.drop_left]

theorem between_append (front bytes back : List UInt8) :
    { between front (bytes ++ back) with pos := front.length + bytes.length } =
      between (front ++ bytes) back := by
  simp [between, ofBytes]

/-- Whether bytes break off inside a varint: there are too few to tell that it is too long. -/
def breaksOff (bytes : List UInt8) : Bool := bytes.length < 10 && bytes.all (128 ≤ ·.toNat)

/-- Whether bytes start with ten that all ask for another one. -/
def isOverlong (bytes : List UInt8) : Bool :=
  10 ≤ bytes.length && (bytes.take 10).all (128 ≤ ·.toNat)

/-- There are two ways for a varint to be malformed. -/
theorem readVarint_fails_iff (c : Cursor) :
    (∃ e c', readVarint c = .error e c') ↔ breaksOff c.rest = true ∨ isOverlong c.rest = true := by
  have hfails : (∃ e c', readVarint c = .error e c') ↔ ∃ e, (Wire.scan 10 c.rest).value = .error e := by
    constructor
    · rintro ⟨e, c', h⟩
      cases hscan : (Wire.scan 10 c.rest).value with
      | error e => exact ⟨e, rfl⟩
      | ok n =>
        rw [readVarint_of_ok hscan] at h
        cases h
    · rintro ⟨e, hscan⟩
      exact ⟨e, _, readVarint_of_error hscan⟩
  rw [hfails, Wire.scan_fails_iff, breaksOff, isOverlong]
  by_cases hshort : c.rest.length < 10
  · simp [hshort, List.take_of_length_le (Nat.le_of_lt hshort)]
  · simp [hshort, Nat.le_of_not_lt hshort]

/-- What a varint is read as, wherever it stands. -/
theorem readVarint_between (v : Int) (front back : List UInt8) :
    readVarint (between front (Wire.varint v ++ back)) =
      .ok (v % 2 ^ 64).toNat (between (front ++ Wire.varint v) back) := by
  have hscan : Wire.scan 10 (between front (Wire.varint v ++ back)).rest =
      ⟨.ok (v % 2 ^ 64).toNat, (Wire.varint v).length⟩ := by
    rw [rest_between, Wire.scan_varint]
  have hmod : (v % 2 ^ 64).toNat % 2 ^ 64 = (v % 2 ^ 64).toNat := by omega
  rw [readVarint_of_ok (by rw [hscan]), hscan, hmod]
  exact congrArg _ (between_append front _ back)

/-- A signed number is read back modulo 2 ^ 64. -/
theorem readSigned_between (v : Int) (front back : List UInt8) :
    readSigned (between front (Wire.varint v ++ back)) =
      .ok (v.bmod (2 ^ 64)) (between (front ++ Wire.varint v) back) := by
  rw [readSigned, bind_of_ok (readVarint_between v front back), Wire.twosComplement_eq_bmod]
  rfl

/-- Bytes that are read to their end as a number are at least as many as those that are written for
it. -/
theorem varint_length_le_of_read {v : Int} {bytes : List UInt8}
    (h : readVarint (ofBytes bytes) = .ok (v % 2 ^ 64).toNat (between bytes [])) :
    (Wire.varint v).length ≤ bytes.length := by
  have hrest : (ofBytes bytes).rest = bytes := rest_between [] bytes
  cases hscan : (Wire.scan 10 bytes).value with
  | error e =>
    rw [readVarint_of_error (by rw [hrest, hscan])] at h
    cases h
  | ok n =>
    rw [readVarint_of_ok (by rw [hrest, hscan]), hrest] at h
    injection h with hvalue hcursor
    have htaken : (Wire.scan 10 bytes).taken = bytes.length := by
      have hpos : 0 + (Wire.scan 10 bytes).taken = bytes.length := congrArg Cursor.pos hcursor
      omega
    obtain ⟨hvarint, hnumber⟩ := Wire.isVarint_of_scan hscan
    rw [htaken, List.take_length] at hvarint hnumber
    exact Wire.varint_length_le hvarint (by rw [hnumber, hvalue])

/-- A signed number of 64 bits is read back from its zigzag varint. -/
theorem readSvarint_between {v : Int} (hlow : -2 ^ 63 ≤ v) (hhigh : v < 2 ^ 63) (front back : List UInt8) :
    read .svarint (between front (Wire.varint (Wire.zigzag v) ++ back)) =
      .ok (.int v) (between (front ++ Wire.varint (Wire.zigzag v)) back) := by
  obtain ⟨hnonneg, hlt⟩ := Wire.zigzag_bounds hlow hhigh
  have hback : Wire.unzigzag ((Wire.zigzag v % 2 ^ 64).toNat : Nat) = v := by
    rw [Int.emod_eq_of_lt hnonneg hlt, Int.toNat_of_nonneg hnonneg, Wire.unzigzag_zigzag]
  rw [read, bind_of_ok (readVarint_between _ front back), hback]
  rfl

/-- Varints and zigzag, on all integers and all bytes. A varint is read back modulo `2 ^ 64`, with or
without sign, at every position; it has one to ten bytes and is the shortest that is read as its number;
reading fails exactly on bytes that break off or go on for too long. Zigzag and its inverse undo each
other, and what is written by zigzag is read back if it has 64 bits. -/
theorem integers_survive_the_wire :
    (∀ (v : Int) (front back : List UInt8),
      readVarint (between front (Wire.varint v ++ back)) =
        .ok (v % 2 ^ 64).toNat (between (front ++ Wire.varint v) back) ∧
      readSigned (between front (Wire.varint v ++ back)) =
        .ok (v.bmod (2 ^ 64)) (between (front ++ Wire.varint v) back)) ∧
    (∀ v : Int, 1 ≤ (Wire.varint v).length ∧ (Wire.varint v).length ≤ 10 ∧
      ∀ bytes, readVarint (ofBytes bytes) = .ok (v % 2 ^ 64).toNat (between bytes []) →
        (Wire.varint v).length ≤ bytes.length) ∧
    (∀ c : Cursor, (∃ e c', readVarint c = .error e c') ↔
      breaksOff c.rest = true ∨ isOverlong c.rest = true) ∧
    (∀ v : Int, Wire.unzigzag (Wire.zigzag v) = v) ∧
    (∀ n : Int, 0 ≤ n → Wire.zigzag (Wire.unzigzag n) = n) ∧
    (∀ v : Int, -2 ^ 63 ≤ v → v < 2 ^ 63 → ∃ bytes, Appends (write .svarint (.int v)) bytes ∧
      ∀ front back, read .svarint (between front (bytes ++ back)) =
        .ok (.int v) (between (front ++ bytes) back)) := by
  refine ⟨fun v front back => ⟨readVarint_between v front back, readSigned_between v front back⟩,
    fun v => ⟨Wire.varint_length_pos v, ?_, fun bytes h => varint_length_le_of_read h⟩,
    readVarint_fails_iff, Wire.unzigzag_zigzag, fun n hn => Wire.zigzag_unzigzag hn,
    fun v hlow hhigh => ?_⟩
  · exact Wire.length_le_of_isVarint (Wire.isVarint_varint v)
  · exact ⟨_, appends_append _, fun front back => readSvarint_between hlow hhigh front back⟩

/-- The lowest number of 64 bits is read back between other bytes, the highest zigzag number comes back,
and ten bytes that all ask for another one are refused. -/
theorem lowest_integer_survives :
    readSigned (between [7] (Wire.varint (-2 ^ 63) ++ [8])) =
      .ok (-2 ^ 63) (between ([7] ++ Wire.varint (-2 ^ 63)) [8]) ∧
    (∃ bytes, Appends (write .svarint (.int (-2 ^ 63))) bytes ∧
      read .svarint (between [7] (bytes ++ [8])) = .ok (.int (-2 ^ 63)) (between ([7] ++ bytes) [8])) ∧
    Wire.zigzag (Wire.unzigzag (2 ^ 64 - 1)) = 2 ^ 64 - 1 ∧
    ∃ e c', readVarint (ofBytes (List.replicate 10 255)) = .error e c' := by
  obtain ⟨hread, -, hfails, -, hback, hsvarint⟩ := integers_survive_the_wire
  obtain ⟨bytes, happends, hbetween⟩ := hsvarint (-2 ^ 63) (by decide) (by decide)
  exact ⟨(hread (-2 ^ 63) [7] [8]).2, ⟨bytes, happends, hbetween [7] [8]⟩,
    hback (2 ^ 64 - 1) (by decide), (hfails _).2 (.inr (by decide))⟩

end ProtoScribe.Cursor
