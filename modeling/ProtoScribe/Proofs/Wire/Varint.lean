import ProtoScribe.Codec.Encode
import ProtoScribe.Proofs.Outcome

/-!
# Varints and fixed-width numbers

* `scan` never takes more bytes than there are, takes at least one when it succeeds, and fails only
  for reasons of the wire format: if every byte that it may look at asks for another one
  (`scan_fails_iff`).
* What `groups` and `littleEndian` write is read back by `scan` and `ofLittleEndian`, whatever
  follows it.
* `varintSize` is the number of bytes of a varint, and no varint that is read as the same number is
  shorter than the one that is written (`varint_length_le`).
* `unzigzag` undoes `zigzag` and the other way round, and `twosComplement` undoes taking a signed number
  modulo a power of two.
-/

namespace ProtoScribe.Wire

theorem toNat_ofNat_of_lt {n : Nat} (h : n < 256) : (UInt8.ofNat n).toNat = n := by
  rw [UInt8.toNat_ofNat']
  exact Nat.mod_eq_of_lt h

/-! ## Scanning -/

theorem scan_taken_le (limit : Nat) (bytes : List UInt8) :
    (scan limit bytes).taken ≤ bytes.length := by
  induction limit generalizing bytes with
  | zero => simp [scan]
  | succ limit ih =>
    cases bytes with
    | nil => simp [scan]
    | cons b rest =>
      have hrest := ih rest
      rw [scan]
      split
      · simp
      · simp only [List.length_cons]
        omega

theorem scan_taken_pos {limit n : Nat} {bytes : List UInt8} (h : (scan limit bytes).value = .ok n) :
    1 ≤ (scan limit bytes).taken := by
  cases limit with
  | zero => simp [scan] at h
  | succ limit =>
    cases bytes with
    | nil => simp [scan] at h
    | cons b rest =>
      rw [scan]
      split
      · simp
      · simp

/-- A varint that is found does not depend on what follows it. -/
theorem scan_append {limit n : Nat} {bytes : List UInt8} (h : (scan limit bytes).value = .ok n)
    (tail : List UInt8) : scan limit (bytes ++ tail) = scan limit bytes := by
  induction limit generalizing bytes n with
  | zero => rfl
  | succ limit ih =>
    cases bytes with
    | nil => cases h
    | cons b rest =>
      rw [List.cons_append, scan, scan]
      rw [scan] at h
      split
      · rfl
      · next hb =>
        rw [if_neg hb] at h
        obtain ⟨m, hm, -⟩ := Outcome.map_ok h
        rw [ih hm]

theorem scan_error_kind {limit : Nat} {bytes : List UInt8} {e : Fault}
    (h : (scan limit bytes).value = .error e) : e.kind = .decode := by
  induction limit generalizing bytes with
  | zero =>
    simp only [scan, Except.error.injEq] at h
    rw [← h]
    rfl
  | succ limit ih =>
    cases bytes with
    | nil =>
      simp only [scan, Except.error.injEq] at h
      rw [← h]
      rfl
    | cons b rest =>
      rw [scan] at h
      split at h
      · cases h
      · simp only at h
        cases hr : (scan limit rest).value with
        | ok n =>
          rw [hr] at h
          cases h
        | error e' =>
          rw [hr] at h
          cases h
          exact ih hr

/-- Scanning fails exactly if every byte that it may look at asks for another one. -/
theorem scan_fails_iff {limit : Nat} {bytes : List UInt8} :
    (∃ e, (scan limit bytes).value = .error e) ↔ (bytes.take limit).all (128 ≤ ·.toNat) = true := by
  induction limit generalizing bytes with
  | zero => simp [scan]
  | succ limit ih =>
    cases bytes with
    | nil => simp [scan]
    | cons b rest =>
      rw [scan, List.take_succ_cons, List.all_cons]
      split
      · next hb => simp [Nat.not_le.2 hb]
      · next hb =>
        have hmap : (∃ e, (scan limit rest).value.map (b.toNat - 128 + 128 * ·) = .error e) ↔
            ∃ e, (scan limit rest).value = .error e := by
          cases (scan limit rest).value <;> simp [Except.map]
        simpa [Nat.le_of_not_lt hb] using hmap.trans ih

/-! ## Writing and scanning -/

/-- A number that fits the groups is read back from them. The induction is on the number of groups:
each level peels one byte off both sides. -/
theorem scan_groups {more n : Nat} (h : n < 128 ^ (more + 1)) (rest : List UInt8) :
    scan (more + 1) (groups more n ++ rest) = ⟨.ok n, (groups more n).length⟩ := by
  induction more generalizing n with
  | zero =>
    have hn : n < 128 := by simpa using h
    simp [groups, scan, toNat_ofNat_of_lt (show n < 256 by omega), hn]
  | succ more ih =>
    rw [groups]
    split
    · next hn => simp [scan, toNat_ofNat_of_lt (show n < 256 by omega), hn]
    · next hn =>
      have hdiv : n / 128 < 128 ^ (more + 1) := by
        rw [Nat.div_lt_iff_lt_mul (by omega)]
        rwa [Nat.pow_succ] at h
      have hbyte : (UInt8.ofNat (n % 128 + 128)).toNat = n % 128 + 128 :=
        toNat_ofNat_of_lt (by omega)
      rw [List.cons_append, scan, hbyte, if_neg (by omega), ih hdiv]
      simp only [List.length_cons, Except.map]
      congr 2
      omega

/-- The natural number that a varint holds. -/
theorem scan_varint {v : Int} (rest : List UInt8) :
    scan 10 (varint v ++ rest) = ⟨.ok (v % 2 ^ 64).toNat, (varint v).length⟩ := by
  have hv : (v % 2 ^ 64).toNat < 128 ^ (9 + 1) := by omega
  exact scan_groups hv rest

/-! ## The shape of a varint -/

/-- Whether bytes are a varint of at most `limit` bytes: the last one is below 128, the others are not.
More bytes than needed are allowed. -/
def isVarint : (limit : Nat) → List UInt8 → Bool
  | 0, _ => false
  | _ + 1, [] => false
  | limit + 1, b :: rest => if b.toNat < 128 then rest.isEmpty else isVarint limit rest

/-- The number in base 128 that the low seven bits of bytes are the digits of. -/
def base128 : List UInt8 → Nat
  | [] => 0
  | b :: rest => b.toNat % 128 + 128 * base128 rest

theorem scan_of_isVarint {limit : Nat} {bytes : List UInt8} (h : isVarint limit bytes = true)
    (rest : List UInt8) : scan limit (bytes ++ rest) = ⟨.ok (base128 bytes), bytes.length⟩ := by
  induction limit generalizing bytes with
  | zero => cases h
  | succ limit ih =>
    cases bytes with
    | nil => cases h
    | cons b more =>
      rw [isVarint] at h
      rw [List.cons_append, scan, base128]
      split at h
      · next hb =>
        rw [List.isEmpty_iff] at h
        subst h
        rw [if_pos hb, Nat.mod_eq_of_lt hb]
        rfl
      · next hb =>
        have hlt : b.toNat < 256 := b.toNat_lt
        have hlow : b.toNat % 128 = b.toNat - 128 := by omega
        rw [if_neg hb, ih h, hlow]
        rfl

/-- The bytes that a scan takes are a varint of the number that it finds. -/
theorem isVarint_of_scan {limit n : Nat} {bytes : List UInt8} (h : (scan limit bytes).value = .ok n) :
    isVarint limit (bytes.take (scan limit bytes).taken) = true ∧
      base128 (bytes.take (scan limit bytes).taken) = n := by
  induction limit generalizing bytes n with
  | zero => cases h
  | succ limit ih =>
    cases bytes with
    | nil => cases h
    | cons b rest =>
      rw [scan] at h ⊢
      split at h
      · next hb =>
        cases h
        rw [if_pos hb, List.take_succ_cons, List.take_zero, isVarint, if_pos hb, base128, base128]
        exact ⟨rfl, by omega⟩
      · next hb =>
        obtain ⟨m, hm, rfl⟩ := Outcome.map_ok h
        obtain ⟨hvarint, hnumber⟩ := ih hm
        have hlt : b.toNat < 256 := b.toNat_lt
        rw [if_neg hb, List.take_succ_cons, isVarint, if_neg hb, base128, hnumber]
        exact ⟨hvarint, by omega⟩

theorem length_le_of_isVarint {limit : Nat} {bytes : List UInt8} (h : isVarint limit bytes = true) :
    bytes.length ≤ limit := by
  induction limit generalizing bytes with
  | zero => cases h
  | succ limit ih =>
    cases bytes with
    | nil => cases h
    | cons b rest =>
      rw [isVarint] at h
      rw [List.length_cons]
      split at h
      · rw [List.isEmpty_iff] at h
        simp [h]
      · exact Nat.succ_le_succ (ih h)

theorem base128_lt (bytes : List UInt8) : base128 bytes < 128 ^ bytes.length := by
  induction bytes with
  | nil => decide
  | cons b rest ih =>
    have hb : b.toNat % 128 < 128 := Nat.mod_lt _ (by decide)
    rw [base128, List.length_cons, Nat.pow_succ]
    omega

theorem isVarint_groups (more n : Nat) (h : n < 128 ^ (more + 1)) :
    isVarint (more + 1) (groups more n) = true := by
  induction more generalizing n with
  | zero =>
    have hn : n < 128 := by simpa using h
    simp [groups, isVarint, toNat_ofNat_of_lt (show n < 256 by omega), hn]
  | succ more ih =>
    rw [groups]
    split
    · next hn => simp [isVarint, toNat_ofNat_of_lt (show n < 256 by omega), hn]
    · have hdiv : n / 128 < 128 ^ (more + 1) := by
        rw [Nat.div_lt_iff_lt_mul (by omega)]
        rwa [Nat.pow_succ] at h
      rw [isVarint, toNat_ofNat_of_lt (by omega), if_neg (by omega)]
      exact ih _ hdiv

theorem isVarint_varint (v : Int) : isVarint 10 (varint v) = true := by
  have hv : (v % 2 ^ 64).toNat < 128 ^ (9 + 1) := by omega
  exact isVarint_groups 9 _ hv

theorem base128_varint (v : Int) : base128 (varint v) = (v % 2 ^ 64).toNat := by
  have hscan := scan_of_isVarint (isVarint_varint v) []
  rw [scan_varint] at hscan
  injection hscan with hvalue
  exact (Except.ok.inj hvalue).symm

theorem ne_nil_of_isVarint {limit : Nat} {bytes : List UInt8} (h : isVarint limit bytes = true) :
    bytes ≠ [] := by
  rintro rfl
  cases limit <;> cases h

theorem varint_length_pos (v : Int) : 1 ≤ (varint v).length := by
  have hvalue : (scan 10 (varint v ++ [])).value = .ok (v % 2 ^ 64).toNat := by rw [scan_varint]
  have htaken := scan_taken_pos hvalue
  rwa [scan_varint] at htaken

theorem varint_emod (v : Int) : varint ((v % 2 ^ 64).toNat : Nat) = varint v := by
  have hv : (((v % 2 ^ 64).toNat : Int) % 2 ^ 64).toNat = (v % 2 ^ 64).toNat := by omega
  rw [varint, hv, varint]

/-! ## Signs -/

theorem unzigzag_zigzag (v : Int) : unzigzag (zigzag v) = v := by
  unfold zigzag unzigzag
  split
  · omega
  · split <;> omega

theorem zigzag_unzigzag {n : Int} (h : 0 ≤ n) : zigzag (unzigzag n) = n := by
  unfold zigzag unzigzag
  split
  · rw [if_pos (by omega)]
    omega
  · rw [if_neg (by omega)]
    omega

theorem zigzag_bounds {v : Int} (hlow : -2 ^ 63 ≤ v) (hhigh : v < 2 ^ 63) :
    0 ≤ zigzag v ∧ zigzag v < 2 ^ 64 := by
  unfold zigzag
  split <;> omega

theorem unzigzag_bounds {n : Nat} (h : n < 2 ^ 64) : -2 ^ 63 ≤ unzigzag n ∧ unzigzag n < 2 ^ 63 := by
  unfold unzigzag
  split <;> omega

theorem twosComplement_bounds {bits n : Nat} (h : n < 2 ^ (bits + 1)) :
    -2 ^ bits ≤ twosComplement (bits + 1) n ∧ twosComplement (bits + 1) n < 2 ^ bits := by
  have hpow : (2 : Int) ^ (bits + 1) = 2 * 2 ^ bits := by rw [Int.pow_succ, Int.mul_comm]
  have hcast : (((2 : Nat) ^ bits : Nat) : Int) = 2 ^ bits := by simp
  rw [Nat.pow_succ] at h
  unfold twosComplement
  rw [Nat.add_sub_cancel, hpow]
  split <;> omega

/-- A number of `bits + 1` bits with sign is read back from its residue. -/
theorem twosComplement_emod {bits : Nat} {v : Int} (hlow : -2 ^ bits ≤ v) (hhigh : v < 2 ^ bits) :
    twosComplement (bits + 1) (v % 2 ^ (bits + 1)).toNat = v := by
  have hpow : (2 : Int) ^ (bits + 1) = 2 * 2 ^ bits := by rw [Int.pow_succ, Int.mul_comm]
  have hcast : (((2 : Nat) ^ bits : Nat) : Int) = 2 ^ bits := by simp
  unfold twosComplement
  rw [Nat.add_sub_cancel, hpow]
  -- half of the range is all that matters
  generalize (2 : Int) ^ bits = half at *
  generalize (2 : Nat) ^ bits = half' at *
  subst hcast
  by_cases hneg : v < 0
  · have hmod : v % (2 * (half' : Int)) = v + 2 * half' := by
      rw [← Int.add_emod_right, Int.emod_eq_of_lt (by omega) (by omega)]
    rw [hmod, if_neg (by omega)]
    omega
  · rw [Int.emod_eq_of_lt (by omega) (by omega), if_pos (by omega)]
    omega

/-- Two's complement picks the signed number with a given residue. -/
theorem twosComplement_eq_bmod (v : Int) : twosComplement 64 (v % 2 ^ 64).toNat = v.bmod (2 ^ 64) := by
  have hnonneg : 0 ≤ v % 2 ^ 64 := Int.emod_nonneg _ (by decide)
  have hbmod : v.bmod (2 ^ 64) = if v % 2 ^ 64 < 2 ^ 63 then v % 2 ^ 64 else v % 2 ^ 64 - 2 ^ 64 := by
    rw [Int.bmod_def]
    rfl
  rw [hbmod, twosComplement, Int.toNat_of_nonneg hnonneg]
  split
  · rw [if_pos (by omega)]
  · rw [if_neg (by omega)]

/-! ## The size of a varint -/

theorem varintSize_of_lt {n : Nat} (h : n < 128) : Codec.varintSize n = 1 := by
  have hlog : n.log2 < 7 := by
    by_cases hn : n = 0
    · rw [hn]
      decide
    · exact (Nat.log2_lt hn).2 h
  rw [Codec.varintSize, Nat.div_eq_of_lt hlog]

theorem varintSize_of_le {n : Nat} (h : 128 ≤ n) :
    Codec.varintSize n = Codec.varintSize (n / 128) + 1 := by
  have hlow : 2 ^ (n / 128).log2 ≤ n / 128 := Nat.log2_self_le (by omega)
  have hhigh : n / 128 < 2 ^ ((n / 128).log2 + 1) := Nat.lt_log2_self
  have hlog : n.log2 = (n / 128).log2 + 7 := by
    refine (Nat.log2_eq_iff (by omega)).2 ⟨?_, ?_⟩
    · rw [Nat.pow_add]
      omega
    · rw [show (n / 128).log2 + 7 + 1 = (n / 128).log2 + 1 + 7 by omega, Nat.pow_add]
      omega
  rw [Codec.varintSize, Codec.varintSize, hlog, Nat.add_div_right _ (by omega)]

theorem groups_length {more n : Nat} (h : n < 128 ^ (more + 1)) :
    (groups more n).length = Codec.varintSize n := by
  induction more generalizing n with
  | zero => rw [varintSize_of_lt (by simpa using h), groups, List.length_singleton]
  | succ more ih =>
    rw [groups]
    split
    · next hn => rw [varintSize_of_lt hn, List.length_singleton]
    · next hn =>
      have hdiv : n / 128 < 128 ^ (more + 1) := by
        rw [Nat.div_lt_iff_lt_mul (by omega)]
        rwa [Nat.pow_succ] at h
      rw [List.length_cons, ih hdiv, varintSize_of_le (n := n) (by omega)]

/-- A number below `2 ^ 64` takes as many bytes as it has digits in base 128. -/
theorem varint_length {n : Nat} (h : n < 2 ^ 64) : (varint n).length = Codec.varintSize n := by
  have hn : ((n : Int) % 2 ^ 64).toNat = n := by omega
  rw [varint, hn]
  exact groups_length (by omega)

/-- Bytes are at least as many as the number in them has digits in base 128. -/
theorem varintSize_base128_le {bytes : List UInt8} (h : bytes ≠ []) :
    Codec.varintSize (base128 bytes) ≤ bytes.length := by
  induction bytes with
  | nil => exact absurd rfl h
  | cons b rest ih =>
    by_cases hlt : base128 (b :: rest) < 128
    · rw [varintSize_of_lt hlt]
      exact Nat.succ_pos _
    · have hdiv : base128 (b :: rest) / 128 = base128 rest := by
        rw [base128]
        omega
      have hrest : rest ≠ [] := by
        rintro rfl
        rw [base128, base128] at hlt
        omega
      rw [varintSize_of_le (Nat.le_of_not_lt hlt), hdiv, List.length_cons]
      exact Nat.succ_le_succ (ih hrest)

/-- The shortest of the varints that hold a number. -/
structure Shortest (bytes : List UInt8) (n : Nat) : Prop where
  isVarint : isVarint 10 bytes = true
  number : base128 bytes = n
  least : ∀ other limit, Wire.isVarint limit other = true → base128 other = n →
    bytes.length ≤ other.length

theorem shortest_varint {n : Nat} (h : n < 2 ^ 64) : Shortest (varint n) n where
  isVarint := isVarint_varint n
  number := by
    rw [base128_varint]
    omega
  least := by
    intro other limit hother hnumber
    have hleast := varintSize_base128_le (ne_nil_of_isVarint hother)
    rwa [hnumber, ← varint_length h] at hleast

/-- No varint that is read as a number modulo `2 ^ 64` is shorter than the one that is written for it.
Ten bytes may hold a larger number than the one that is read, but nothing that is written is longer. -/
theorem varint_length_le {v : Int} {bytes : List UInt8} (h : isVarint 10 bytes = true)
    (hv : base128 bytes % 2 ^ 64 = (v % 2 ^ 64).toNat) : (varint v).length ≤ bytes.length := by
  by_cases hshort : bytes.length < 10
  · have hlt : base128 bytes < 2 ^ 64 := by
      have hbound := base128_lt bytes
      have hpow : 128 ^ bytes.length ≤ 128 ^ 9 := Nat.pow_le_pow_right (by decide) (by omega)
      omega
    rw [Nat.mod_eq_of_lt hlt] at hv
    have hleast := varintSize_base128_le (ne_nil_of_isVarint h)
    rwa [hv, ← varint_length (by omega), varint_emod] at hleast
  · have hmost := length_le_of_isVarint (isVarint_varint v)
    omega

/-! ## Fixed width -/

@[simp]
theorem littleEndian_length (size n : Nat) : (littleEndian size n).length = size := by
  induction size generalizing n with
  | zero => rfl
  | succ size ih => rw [littleEndian, List.length_cons, ih]

theorem ofLittleEndian_littleEndian (size n : Nat) :
    ofLittleEndian (littleEndian size n) = n % 256 ^ size := by
  induction size generalizing n with
  | zero => simp [littleEndian, ofLittleEndian, Nat.mod_one]
  | succ size ih =>
    rw [littleEndian, ofLittleEndian, ih, toNat_ofNat_of_lt (Nat.mod_lt _ (by omega)), Nat.pow_succ,
      Nat.mul_comm (256 ^ size), Nat.mod_mul]

theorem ofLittleEndian_lt (bytes : List UInt8) : ofLittleEndian bytes < 256 ^ bytes.length := by
  induction bytes with
  | nil => decide
  | cons b rest ih =>
    have hb : b.toNat < 256 := b.toNat_lt
    rw [ofLittleEndian, List.length_cons, Nat.pow_succ]
    omega

theorem littleEndian_mod (size n : Nat) : littleEndian size (n % 256 ^ size) = littleEndian size n := by
  induction size generalizing n with
  | zero => rfl
  | succ size ih =>
    have hbyte : n % 256 ^ (size + 1) % 256 = n % 256 :=
      Nat.mod_mod_of_dvd n ⟨256 ^ size, by rw [Nat.pow_succ, Nat.mul_comm]⟩
    have hrest : n % 256 ^ (size + 1) / 256 = n / 256 % 256 ^ size := by
      rw [Nat.pow_succ, Nat.mul_comm, Nat.mod_mul_right_div_self]
    rw [littleEndian, littleEndian, hbyte, hrest, ih]

end ProtoScribe.Wire
