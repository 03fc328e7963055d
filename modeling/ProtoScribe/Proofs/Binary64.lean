import ProtoScribe.Binary64

/-!
# Narrowing what was widened

Every single-precision number is a double-precision number. So widening is exact, and narrowing takes
it back (`Binary64.narrow?_widen`); a NaN comes back as a quiet one, which widens to the same NaN.

Rounding looks at nothing but the quotient (`Format.nearest_mul`), and a number that a pattern stands
for is rounded to that pattern (`Format.nearest_units`). The two formats meet in the units of the wider
one (`Format.exists_wide`).
-/

namespace ProtoScribe

/-! ## Rounding -/

theorem roundHalfEven_mul {k : Nat} (hk : 0 < k) (a b : Nat) :
    roundHalfEven (a * k) (b * k) = roundHalfEven a b := by
  have hdiv : a * k / (b * k) = a / b := Nat.mul_div_mul_right a b hk
  have hmod : a * k % (b * k) = a % b * k := Nat.mul_mod_mul_right k a b
  -- both tests compare multiples of `k`
  have hgt : 2 * (a % b * k) > b * k ↔ 2 * (a % b) > b := by
    rw [← Nat.mul_assoc]
    exact Nat.mul_lt_mul_right hk
  have heq : 2 * (a % b * k) = b * k ↔ 2 * (a % b) = b := by
    rw [← Nat.mul_assoc]
    exact Nat.mul_right_cancel_iff hk
  simp only [roundHalfEven, hdiv, hmod, hgt, heq]

theorem roundHalfEven_exact {b : Nat} (hb : 0 < b) (q : Nat) : roundHalfEven (q * b) b = q := by
  have hdiv : q * b / b = q := Nat.mul_div_cancel q hb
  have hmod : q * b % b = 0 := Nat.mul_mod_left q b
  simp only [roundHalfEven, hdiv, hmod]
  rw [if_neg]
  omega

namespace Format

variable (f : Format) {pattern : Nat}

/-- Numerator and denominator may be multiplied by the same. -/
theorem nearest_mul {k : Nat} (hk : 0 < k) (num den : Nat) :
    f.nearest (num * k) (den * k) = f.nearest num den := by
  have hscaled : num * k * 2 ^ f.leastScale = num * 2 ^ f.leastScale * k := Nat.mul_right_comm _ _ _
  have hdiv : num * 2 ^ f.leastScale * k / (den * k) = num * 2 ^ f.leastScale / den :=
    Nat.mul_div_mul_right _ _ hk
  have hround : ∀ scale, roundHalfEven (num * 2 ^ f.leastScale * k) (den * k * 2 ^ scale) =
      roundHalfEven (num * 2 ^ f.leastScale) (den * 2 ^ scale) := by
    intro scale
    rw [Nat.mul_right_comm den]
    exact roundHalfEven_mul hk _ _
  simp only [nearest, hscaled, hdiv, hround]

/-! ## Patterns and what they stand for -/

/-- The patterns without an exponent count the units. -/
theorem units_of_lt (h : pattern < 2 ^ f.fractionBits) : f.units pattern = pattern := by
  have hexponent : pattern / 2 ^ f.fractionBits = 0 := Nat.div_eq_of_lt h
  simp [units, decode, hexponent, Nat.mod_eq_of_lt h]

/-- Any other pattern is a full significand, at some scale. -/
theorem units_normal {significand : Nat} (scale : Nat) (hlow : 2 ^ f.fractionBits ≤ significand)
    (hhigh : significand < 2 ^ (f.fractionBits + 1)) :
    f.units (scale * 2 ^ f.fractionBits + significand) = significand * 2 ^ scale := by
  obtain ⟨fraction, rfl⟩ := Nat.exists_eq_add_of_le hlow
  have hpos : 0 < 2 ^ f.fractionBits := Nat.two_pow_pos _
  have hfraction : fraction < 2 ^ f.fractionBits := by
    rw [Nat.pow_succ] at hhigh
    omega
  have hpattern : scale * 2 ^ f.fractionBits + (2 ^ f.fractionBits + fraction) =
      fraction + (scale + 1) * 2 ^ f.fractionBits := by
    rw [Nat.succ_mul]
    omega
  have hexponent : (fraction + (scale + 1) * 2 ^ f.fractionBits) / 2 ^ f.fractionBits = scale + 1 := by
    rw [Nat.add_mul_div_right _ _ hpos, Nat.div_eq_of_lt hfraction, Nat.zero_add]
  have hrest : (fraction + (scale + 1) * 2 ^ f.fractionBits) % 2 ^ f.fractionBits = fraction := by
    rw [Nat.add_mul_mod_self_right, Nat.mod_eq_of_lt hfraction]
  rw [hpattern, Nat.add_comm (2 ^ f.fractionBits)]
  simp only [units, decode, hexponent, hrest, Nat.add_one_ne_zero, if_false, Nat.add_sub_cancel]

theorem pattern_cases (pattern : Nat) : pattern < 2 ^ f.fractionBits ∨
    ∃ scale significand, 2 ^ f.fractionBits ≤ significand ∧ significand < 2 ^ (f.fractionBits + 1) ∧
      pattern = scale * 2 ^ f.fractionBits + significand := by
  have hpos : 0 < 2 ^ f.fractionBits := Nat.two_pow_pos _
  have hsplit := Nat.div_add_mod' pattern (2 ^ f.fractionBits)
  have hfraction := Nat.mod_lt pattern hpos
  cases hexponent : pattern / 2 ^ f.fractionBits with
  | zero =>
    rw [hexponent] at hsplit
    exact .inl (by omega)
  | succ scale =>
    rw [hexponent, Nat.succ_mul] at hsplit
    refine .inr ⟨scale, 2 ^ f.fractionBits + pattern % 2 ^ f.fractionBits, by omega, ?_, by omega⟩
    rw [Nat.pow_succ]
    omega

/-- What a finite pattern stands for is rounded to the pattern. -/
theorem nearest_units (h : pattern < f.infinity) :
    f.nearest (f.units pattern) (2 ^ f.leastScale) = pattern := by
  have hpos : 0 < 2 ^ f.leastScale := Nat.two_pow_pos _
  have hquotient : f.units pattern * 2 ^ f.leastScale / 2 ^ f.leastScale = f.units pattern :=
    Nat.mul_div_cancel _ hpos
  have hround : ∀ scale, roundHalfEven (f.units pattern * 2 ^ f.leastScale) (2 ^ f.leastScale * 2 ^ scale) =
      roundHalfEven (f.units pattern) (2 ^ scale) := by
    intro scale
    rw [Nat.mul_comm (2 ^ f.leastScale)]
    exact roundHalfEven_mul hpos _ _
  simp only [nearest, hquotient, hround]
  rcases f.pattern_cases pattern with hsmall | ⟨scale, significand, hlow, hhigh, hpattern⟩
  · have hscale : (f.units pattern).log2 - f.fractionBits = 0 := by
      rw [f.units_of_lt hsmall]
      by_cases hzero : pattern = 0
      · simp [hzero]
      · have := (Nat.log2_lt hzero).2 hsmall
        omega
    rw [hscale, f.units_of_lt hsmall, Nat.pow_zero]
    have hexact := roundHalfEven_exact Nat.one_pos pattern
    rw [Nat.mul_one] at hexact
    omega
  · have hunits : f.units pattern = significand * 2 ^ scale := by
      rw [hpattern, f.units_normal scale hlow hhigh]
    have hne : significand * 2 ^ scale ≠ 0 := by
      have := Nat.mul_pos (Nat.lt_of_lt_of_le (Nat.two_pow_pos _) hlow) (Nat.two_pow_pos scale)
      omega
    have hlog : (significand * 2 ^ scale).log2 = f.fractionBits + scale := by
      rw [Nat.log2_eq_iff hne, Nat.add_right_comm, Nat.pow_add, Nat.pow_add]
      exact ⟨Nat.mul_le_mul_right _ hlow, Nat.mul_lt_mul_of_pos_right hhigh (Nat.two_pow_pos scale)⟩
    have hscale : f.fractionBits + scale - f.fractionBits = scale := by omega
    rw [hunits, hlog, hscale, roundHalfEven_exact (Nat.two_pow_pos scale)]
    omega

/-! ## The two formats -/

theorem units_narrow (h : pattern < binary32.infinity) :
    ∃ significand scale, significand < 2 ^ 24 ∧ scale < 254 ∧
      binary32.units pattern = significand * 2 ^ scale := by
  have hinfinity : binary32.infinity = 255 * 2 ^ 23 := rfl
  rcases binary32.pattern_cases pattern with hsmall | ⟨scale, significand, hlow, hhigh, hpattern⟩
  · have hsmall : pattern < 2 ^ 23 := hsmall
    refine ⟨pattern, 0, by omega, by decide, ?_⟩
    rw [binary32.units_of_lt hsmall, Nat.pow_zero, Nat.mul_one]
  · refine ⟨significand, scale, hhigh, ?_, ?_⟩
    · have hlow : 2 ^ 23 ≤ significand := hlow
      have hpattern : pattern = scale * 2 ^ 23 + significand := hpattern
      omega
    · rw [hpattern, binary32.units_normal scale hlow hhigh]

/-- A finite number of single precision is one of double precision, which counts smaller units. -/
theorem exists_wide (h : pattern < binary32.infinity) :
    ∃ wide < binary64.infinity, binary64.units wide =
      binary32.units pattern * 2 ^ (binary64.leastScale - binary32.leastScale) := by
  obtain ⟨significand, scale, hsignificand, hscale, hunits⟩ := units_narrow h
  rw [hunits]
  by_cases hzero : significand = 0
  · refine ⟨0, by decide, ?_⟩
    rw [binary64.units_of_lt (Nat.two_pow_pos _), hzero, Nat.zero_mul, Nat.zero_mul]
  · -- the leading bit of the significand moves to the place of the hidden bit
    have hlog : significand.log2 < 24 := (Nat.log2_lt hzero).2 hsignificand
    have hsplit : 52 = significand.log2 + (52 - significand.log2) := by omega
    have hlow : 2 ^ 52 ≤ significand * 2 ^ (52 - significand.log2) := by
      rw [hsplit, Nat.pow_add, ← hsplit]
      exact Nat.mul_le_mul_right _ (Nat.log2_self_le hzero)
    have hhigh : significand * 2 ^ (52 - significand.log2) < 2 ^ 53 := by
      have hpow : 2 ^ 53 = 2 ^ (significand.log2 + 1) * 2 ^ (52 - significand.log2) := by
        rw [← Nat.pow_add]
        congr 1
        omega
      rw [hpow]
      exact Nat.mul_lt_mul_of_pos_right Nat.lt_log2_self (Nat.two_pow_pos _)
    have hinfinity : binary64.infinity = 2047 * 2 ^ 52 := rfl
    refine ⟨(significand.log2 + scale + 873) * 2 ^ 52 + significand * 2 ^ (52 - significand.log2), ?_, ?_⟩
    · have hbound : significand.log2 + scale + 873 ≤ 1149 := by omega
      have := Nat.mul_le_mul_right (2 ^ 52) hbound
      rw [hinfinity]
      omega
    · have hwide := binary64.units_normal (significand.log2 + scale + 873) hlow hhigh
      have hscales : 52 - significand.log2 + (significand.log2 + scale + 873) =
          scale + (binary64.leastScale - binary32.leastScale) := by
        have hgap : binary64.leastScale - binary32.leastScale = 925 := rfl
        omega
      refine hwide.trans ?_
      rw [Nat.mul_assoc, Nat.mul_assoc, ← Nat.pow_add, ← Nat.pow_add, hscales]

end Format

namespace Binary64

theorem pattern_ofPattern {pattern : Nat} (h : pattern < 2 ^ 63) (negative : Bool) :
    (ofPattern negative pattern).pattern = pattern := by
  simp only [Binary64.pattern, ofPattern, UInt64.toNat_ofNat']
  split <;> omega

theorem negative_ofPattern {pattern : Nat} (h : pattern < 2 ^ 63) (negative : Bool) :
    (ofPattern negative pattern).negative = negative := by
  cases negative <;> simp only [Binary64.negative, ofPattern, UInt64.toNat_ofNat'] <;> simp <;> omega

/-- A single-precision pattern is its sign bit and the bits below. -/
theorem ofNat_sign (bits : UInt32) :
    UInt32.ofNat ((if decide (2 ^ 31 ≤ bits.toNat) then 2 ^ 31 else 0) + bits.toNat % 2 ^ 31) = bits := by
  have hlt : bits.toNat < 2 ^ 32 := bits.toNat_lt
  have hnat : (if decide (2 ^ 31 ≤ bits.toNat) then 2 ^ 31 else 0) + bits.toNat % 2 ^ 31 = bits.toNat := by
    split
    · next h =>
      have := of_decide_eq_true h
      omega
    · next h =>
      have := of_decide_eq_false (Bool.eq_false_iff.2 h)
      omega
  rw [hnat, UInt32.ofNat_toNat]

/-- Narrowing takes widening back. -/
theorem narrow?_widen {bits : UInt32} (h : bits.toNat % 2 ^ 31 ≤ Format.binary32.infinity) :
    (widen bits).narrow? = some bits := by
  have hinfinite : Format.binary64.infinity < 2 ^ 63 := by decide
  by_cases heq : bits.toNat % 2 ^ 31 = Format.binary32.infinity
  · have hwiden : widen bits = infinity (decide (2 ^ 31 ≤ bits.toNat)) := by
      simp only [widen]
      rw [if_neg (by omega), if_pos heq]
    have hbits := ofNat_sign bits
    rw [heq] at hbits
    have hnan : (infinity (decide (2 ^ 31 ≤ bits.toNat))).isNaN = false := by
      simp [isNaN, infinity, pattern_ofPattern hinfinite]
    have hinf : (infinity (decide (2 ^ 31 ≤ bits.toNat))).isInfinite = true := by
      simp [isInfinite, infinity, pattern_ofPattern hinfinite]
    have hsign : (infinity (decide (2 ^ 31 ≤ bits.toNat))).negative = decide (2 ^ 31 ≤ bits.toNat) :=
      negative_ofPattern hinfinite _
    rw [hwiden, narrow?]
    simp only [hnan, hinf, hsign, hbits, if_true, Bool.false_eq_true, if_false]
  · have hlt : bits.toNat % 2 ^ 31 < Format.binary32.infinity := by omega
    obtain ⟨wide, hwide, hunits⟩ := Format.exists_wide hlt
    have hpos := Nat.two_pow_pos (Format.binary64.leastScale - Format.binary32.leastScale)
    have hden : 2 ^ Format.binary64.leastScale = 2 ^ Format.binary32.leastScale *
        2 ^ (Format.binary64.leastScale - Format.binary32.leastScale) := by
      rw [← Nat.pow_add, Nat.add_sub_cancel' (by decide)]
    -- both roundings are exact: into the wide format, and back
    have hforth : Format.binary64.nearest (Format.binary32.units (bits.toNat % 2 ^ 31))
        (2 ^ Format.binary32.leastScale) = wide := by
      rw [← Format.nearest_mul _ hpos, ← hunits, ← hden]
      exact Format.binary64.nearest_units hwide
    have hback : Format.binary32.nearest (Format.binary64.units wide) (2 ^ Format.binary64.leastScale) =
        bits.toNat % 2 ^ 31 := by
      rw [hunits, hden, Format.nearest_mul _ hpos]
      exact Format.binary32.nearest_units hlt
    have hwiden : widen bits = ofPattern (decide (2 ^ 31 ≤ bits.toNat)) wide := by
      simp only [widen]
      rw [if_neg (by omega), if_neg heq, hforth]
    have hpattern : (widen bits).pattern = wide := by
      rw [hwiden]
      exact pattern_ofPattern (by omega) _
    have hsign : (widen bits).negative = decide (2 ^ 31 ≤ bits.toNat) := by
      rw [hwiden]
      exact negative_ofPattern (by omega) _
    have hnan : (widen bits).isNaN = false := by
      simp only [isNaN, hpattern, decide_eq_false_iff_not]
      omega
    have hinf : (widen bits).isInfinite = false := by
      simp only [isInfinite, hpattern, beq_eq_false_iff_ne]
      omega
    rw [narrow?]
    simp only [hnan, hinf, hpattern, hback, hlt, hsign, ofNat_sign, if_true, Bool.false_eq_true, if_false]

/-- A NaN keeps its sign and the bits below the quiet bit. -/
theorem widen_nan {bits : UInt32} (h : Format.binary32.infinity < bits.toNat % 2 ^ 31) :
    widen bits = ofPattern (decide (2 ^ 31 ≤ bits.toNat))
      (Format.binary64.infinity + 2 ^ 51 + bits.toNat % 2 ^ 22 * 2 ^ 29) := by
  have hpayload : bits.toNat % 2 ^ 31 % 2 ^ 22 = bits.toNat % 2 ^ 22 := by omega
  simp only [widen]
  rw [if_pos h, hpayload]

/-- A NaN is narrowed to its sign, the quiet bit and the upper bits of its payload. -/
theorem toNat_narrow {x : Binary64} {bits : UInt32} (hnan : x.isNaN = true)
    (h : x.narrow? = some bits) :
    bits.toNat = (if x.negative then 2 ^ 31 else 0) + Format.binary32.infinity + 2 ^ 22 +
      x.pattern % 2 ^ 51 / 2 ^ 29 := by
  have hinfinity : Format.binary32.infinity = 255 * 2 ^ 23 := rfl
  simp only [narrow?, hnan, if_true, Option.some.injEq] at h
  rw [← h, UInt32.toNat_ofNat']
  split <;> omega

theorem narrow?_widen_nan {bits : UInt32} (h : Format.binary32.infinity < bits.toNat % 2 ^ 31) :
    (widen bits).isNaN = true ∧ ∃ quiet, (widen bits).narrow? = some quiet ∧
      quiet.toNat = (if 2 ^ 31 ≤ bits.toNat then 2 ^ 31 else 0) + Format.binary32.infinity + 2 ^ 22 +
        bits.toNat % 2 ^ 22 := by
  have hinfinity : Format.binary64.infinity = 2047 * 2 ^ 52 := rfl
  have hlt : Format.binary64.infinity + 2 ^ 51 + bits.toNat % 2 ^ 22 * 2 ^ 29 < 2 ^ 63 := by omega
  have hwiden := widen_nan h
  have hpattern : (widen bits).pattern =
      Format.binary64.infinity + 2 ^ 51 + bits.toNat % 2 ^ 22 * 2 ^ 29 := by
    rw [hwiden, pattern_ofPattern hlt]
  have hsign : (widen bits).negative = decide (2 ^ 31 ≤ bits.toNat) := by
    rw [hwiden]
    exact negative_ofPattern hlt _
  have hnan : (widen bits).isNaN = true := by
    simp only [isNaN, hpattern, decide_eq_true_eq]
    omega
  have hpayload : (widen bits).pattern % 2 ^ 51 / 2 ^ 29 = bits.toNat % 2 ^ 22 := by
    rw [hpattern]
    omega
  obtain ⟨quiet, hquiet⟩ : ∃ quiet, (widen bits).narrow? = some quiet :=
    ⟨_, by rw [narrow?, if_pos hnan]⟩
  refine ⟨hnan, quiet, hquiet, ?_⟩
  rw [toNat_narrow hnan hquiet, hsign, hpayload]
  simp only [decide_eq_true_eq]

/-- What narrowing gives for a widened number stands for the same number. -/
theorem exists_narrow?_widen (bits : UInt32) :
    ∃ quiet, (widen bits).narrow? = some quiet ∧ widen quiet = widen bits := by
  by_cases h : bits.toNat % 2 ^ 31 ≤ Format.binary32.infinity
  · exact ⟨bits, narrow?_widen h, rfl⟩
  · have hinfinity : Format.binary32.infinity = 255 * 2 ^ 23 := rfl
    obtain ⟨-, quiet, hquiet, hnat⟩ := narrow?_widen_nan (Nat.lt_of_not_le h)
    -- the quiet bit is set now; the sign and the payload are those of `bits`
    have hsame : 2 ^ 31 ≤ quiet.toNat ↔ 2 ^ 31 ≤ bits.toNat := by
      split at hnat <;> omega
    have hbelow : Format.binary32.infinity < quiet.toNat % 2 ^ 31 ∧
        quiet.toNat % 2 ^ 22 = bits.toNat % 2 ^ 22 := by
      split at hnat <;> omega
    refine ⟨quiet, hquiet, ?_⟩
    rw [widen_nan hbelow.1, hbelow.2, decide_eq_decide.2 hsame, widen_nan (Nat.lt_of_not_le h)]

/-- A NaN that was narrowed has the quiet bit, so that widening and narrowing it again changes nothing. -/
theorem narrow?_widen_narrow {x : Binary64} {bits : UInt32} (hnan : x.isNaN = true)
    (h : x.narrow? = some bits) :
    (widen bits).isNaN = true ∧ (widen bits).narrow? = some bits := by
  have hinfinity : Format.binary32.infinity = 255 * 2 ^ 23 := rfl
  have hbits := toNat_narrow hnan h
  have hpattern : Format.binary32.infinity < bits.toNat % 2 ^ 31 := by
    split at hbits <;> omega
  obtain ⟨hwide, quiet, hquiet, hnat⟩ := narrow?_widen_nan hpattern
  refine ⟨hwide, hquiet.trans (congrArg some ?_)⟩
  apply UInt32.toNat_inj.1
  rw [hnat]
  split at hbits <;> split <;> omega

end Binary64

end ProtoScribe
