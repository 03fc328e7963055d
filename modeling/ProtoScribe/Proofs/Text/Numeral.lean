import ProtoScribe.Text.Numeral

/-!
# Numerals of integers

The numeral that is printed for an integer denotes it (`integer?_toString`), as long as it is not longer
than numerals may be. It has neither blanks nor underscores, and all of its digits are ASCII.
-/

namespace ProtoScribe.Text

/-! ## Digits -/

theorem toNat_of_isDigit {c : Char} (h : c.isDigit = true) : 48 ≤ c.toNat ∧ c.toNat < 58 := by
  simp only [Char.isDigit, Bool.and_eq_true, decide_eq_true_eq] at h
  have hlow : 48 ≤ c.toNat := h.1
  have hhigh : c.toNat ≤ 57 := h.2
  omega

theorem digit?_of_isDigit {c : Char} (h : c.isDigit = true) : digit? c = some (c.toNat - 48) := by
  have hrange := toNat_of_isDigit h
  rw [digit?, zeros, List.findSome?_cons, if_pos ⟨hrange.1, by omega⟩]

/-- A character between the blanks of ASCII and the others is no blank. -/
theorem isBlank_eq_false {c : Char} (hlow : 32 < c.toNat) (hhigh : c.toNat < 128) : isBlank c = false := by
  have hwide : c.toNat ∉ wideBlanks := by
    intro hmem
    have hall : ∀ n ∈ wideBlanks, 128 ≤ n := by decide
    have := hall _ hmem
    omega
  simp [isBlank, hwide]
  omega

theorem digits?_of_isDigit {cs : List Char} (hne : cs ≠ []) (h : ∀ c ∈ cs, c.isDigit = true) :
    digits? cs = some (cs.map fun c => c.toNat - 48) := by
  induction cs with
  | nil => exact absurd rfl hne
  | cons c cs ih =>
    rw [List.forall_mem_cons] at h
    cases cs with
    | nil => simp [digits?, digit?_of_isDigit h.1]
    | cons c' cs =>
      have hscore : c' ≠ '_' := by
        rintro rfl
        exact absurd (h.2 '_' (by simp)) (by decide)
      rw [digits?, digit?_of_isDigit h.1, ih (by simp) h.2]
      · rfl
      · simp
      · intro rest hrest
        cases hrest
        exact hscore rfl

theorem valueOf_toDigits (n : Nat) : valueOf ((Nat.toDigits 10 n).map fun c => c.toNat - 48) = n := by
  rw [valueOf, List.foldl_map]
  exact Nat.ofDigitChars_toDigits (by decide) (by decide)

/-! ## Numerals -/

/-- Text that has no blanks in it stays as it is. -/
theorem trimBlanks_eq_self {cs : List Char} (h : ∀ c ∈ cs, isBlank c = false) : trimBlanks cs = cs := by
  have hdrop : ∀ cs : List Char, (∀ c ∈ cs, isBlank c = false) → cs.dropWhile isBlank = cs := by
    intro cs h
    cases cs with
    | nil => rfl
    | cons c cs => simp [h c (by simp)]
  rw [trimBlanks, hdrop cs h, hdrop cs.reverse (by simpa using h), List.reverse_reverse]

theorem sign_of_isDigit {cs : List Char} (h : ∀ c ∈ cs, c.isDigit = true) : sign cs = (false, cs) := by
  unfold sign
  split
  · exact absurd (h '-' (by simp)) (by decide)
  · exact absurd (h '+' (by simp)) (by decide)
  · rfl

/-- Digits behind a sign, or without one, denote a number. -/
theorem integerOf?_digits (negative : Bool) (n : Nat) :
    integerOf? ((if negative then ['-'] else []) ++ Nat.toDigits 10 n) =
      if n < 10 ^ digitLimit then some (if negative then -(n : Int) else n) else none := by
  have hdigit : ∀ c ∈ Nat.toDigits 10 n, c.isDigit = true := fun c hc =>
    Nat.isDigit_of_mem_toDigits (by decide) (by decide) hc
  have hblank : ∀ c ∈ (if negative then ['-'] else []) ++ Nat.toDigits 10 n, isBlank c = false := by
    intro c hc
    rcases List.mem_append.1 hc with hc | hc
    · cases negative with
      | true =>
        rw [List.mem_singleton.1 hc]
        rfl
      | false => cases hc
    · have hrange := toNat_of_isDigit (hdigit c hc)
      exact isBlank_eq_false (by omega) (by omega)
  have hsign : sign ((if negative then ['-'] else []) ++ Nat.toDigits 10 n) =
      (negative, Nat.toDigits 10 n) := by
    cases negative with
    | true => rfl
    | false => exact sign_of_isDigit hdigit
  have hlength : (Nat.toDigits 10 n).length ≤ digitLimit ↔ n < 10 ^ digitLimit :=
    Nat.length_toDigits_le_iff (by decide) (by decide)
  simp only [integerOf?, trimBlanks_eq_self hblank, hsign,
    digits?_of_isDigit Nat.toDigits_ne_nil hdigit, List.length_map, hlength, valueOf_toDigits]

/-- The numeral of an integer denotes it, unless it has too many digits. -/
theorem integer?_toString (n : Int) :
    integer? (toString n) = if n.natAbs < 10 ^ digitLimit then some n else none := by
  have hdigits : (toString n).toList =
      (if decide (n < 0) then ['-'] else []) ++ Nat.toDigits 10 n.natAbs := by
    rw [Int.toString_eq_repr, Int.repr_eq_if]
    split
    · next h =>
      have habs : n.toNat = n.natAbs := by omega
      simp [Int.not_lt.2 h, Nat.toList_repr, habs]
    · next h =>
      have habs : (-n).toNat = n.natAbs := by omega
      simp [Int.not_le.1 h, Nat.toList_repr, habs]
  have hvalue : (if decide (n < 0) then -(n.natAbs : Int) else n.natAbs) = n := by
    simp only [decide_eq_true_eq]
    omega
  rw [integer?, hdigits, integerOf?_digits, hvalue]

end ProtoScribe.Text
