import ProtoScribe.Proofs.Codec.RoundTrip

/-!
# Writing what was read

A message that was read holds values of its types in normal form, and defaults. `Stable` is what follows
for it: it can be sent, it agrees with its normal form, and the normal form has the same encoding.
`stable_of_partial` proves this of a message from what is known of the messages inside, and that is all
that reading asks for (`read_stable`).

A default may be out of the range of its type, but then it goes without saying. The only default that is
not equal to itself is NaN, and that can be written.
-/

namespace ProtoScribe

/-! ## Equality with defaults -/

/-- Scalars of one kind that are equal are the same, up to the sign of a zero. -/
theorem Value.Alike.eq_of_equals {v d : Value} (h : v.Alike d) (heq : v.equals d = true) :
    v = d ∨ ∃ x y : Binary64, v = .float x ∧ d = .float y ∧ x.isZero = true ∧ y.isZero = true := by
  cases h with
  | bool a b => exact .inl (by simpa [Value.equals] using heq)
  | int a b => exact .inl (by simpa [Value.equals] using heq)
  | str a b => exact .inl (by simpa [Value.equals] using heq)
  | bytes a b => exact .inl (by simpa [Value.equals] using heq)
  | float x y =>
    simp only [Value.equals, Binary64.equals, Bool.and_eq_true, Bool.or_eq_true, beq_iff_eq] at heq
    rcases heq.2 with hbits | hzeros
    · left
      cases x
      cases y
      simpa using hbits
    · exact .inr ⟨x, y, rfl, rfl, hzeros.1, hzeros.2⟩

/-- What is equal to something is equal to itself, among scalars of one kind. -/
theorem Value.Alike.equals_self {v d : Value} (h : v.Alike d) (heq : v.equals d = true) :
    d.equals d = true := by
  cases h with
  | bool a b => simp [Value.equals]
  | int a b => simp [Value.equals]
  | str a b => simp [Value.equals]
  | bytes a b => simp [Value.equals]
  | float x y =>
    simp only [Value.equals, Binary64.equals, Bool.and_eq_true] at heq
    simpa [Value.equals, Binary64.equals] using heq.1.2

/-- A default that is not equal to itself is a NaN of its type, which can be written. -/
theorem Scalar.Defaults.of_not_equals {t : Scalar} {d : Value} (h : t.Defaults d)
    (hne : d.equals d = false) : Codec.isOf t d = true ∧ Codec.normalScalar t d = d := by
  cases h with
  | bool b => simp [Value.equals] at hne
  | int n _ => simp [Value.equals] at hne
  | str s => simp [Value.equals] at hne
  | @float t x hzero hnan =>
    obtain ⟨negative, rfl⟩ : ∃ negative, x = .nan negative := by
      apply hnan
      simpa [Value.equals, Binary64.equals] using hne
    cases t with
    | double => exact ⟨rfl, rfl⟩
    | float => cases negative <;> exact ⟨by decide +kernel, by decide +kernel⟩
    | _ => cases hzero

namespace Codec

open Run

variable {p : Place} {slots : List Slot} {s : Slot} {v : Value} {message : List (Value × Value)}

/-! ## Normal forms by slots -/

def normalEntries (slots : List Slot) (entries : List (Value × Value)) : List (Value × Value) :=
  slots.filterMap (filled? normal entries) ++ slots.filterMap (added? normal entries)

theorem filled?_key {entries : List (Value × Value)} {entry : Value × Value}
    (h : filled? normal entries s = some entry) : entry.1 = s.field.name := by
  have hfilled : filledWith (s, normalValues normal entries s) = some entry := h
  exact filledWith_key hfilled

theorem added?_key {entries : List (Value × Value)} {entry : Value × Value}
    (h : added? normal entries s = some entry) : entry.1 = s.field.name := by
  have hadded : addedWith (s, normalValues normal entries s) = some entry := h
  exact addedWith_key hadded

/-- The entries of a normal form belong to the slots. -/
theorem keyed_normalEntries (slots : List Slot) (entries : List (Value × Value)) :
    Keyed slots (normalEntries slots entries) :=
  (keyed_filterMap (fun _ _ => filled?_key) slots).append (keyed_filterMap (fun _ _ => added?_key) slots)

/-- What a normal form has for a field is found under its name, as the names are apart. -/
theorem find?_normalEntries (h : Slot.Apart slots) (hs : s ∈ slots) (entries : List (Value × Value)) :
    Value.find? (normalEntries slots entries) s.field.name =
      ((filled? normal entries s).map Prod.snd).or ((added? normal entries s).map Prod.snd) := by
  rw [normalEntries, Value.find?_append, h.find?_filterMap (fun _ _ => filled?_key) hs,
    h.find?_filterMap (fun _ _ => added?_key) hs]

theorem find?_normalEntries_list (h : Slot.Apart slots) (hs : s ∈ slots) (hrep : s.field.repeated = true)
    (entries : List (Value × Value)) :
    Value.find? (normalEntries slots entries) s.field.name = some (.list (normalValues normal entries s)) := by
  rw [find?_normalEntries h hs]
  simp [filled?, Slot.initial?, settled, hrep]

/-- A slot that is not repeated has its value in the normal form, or what it starts with. -/
theorem find?_normalEntries_single (h : Slot.Apart slots) (hs : s ∈ slots)
    (hrep : s.field.repeated = false) (entries : List (Value × Value)) :
    Value.find? (normalEntries slots entries) s.field.name =
      (normalValues normal entries s).head?.or (s.initial?.map Prod.snd) := by
  rw [find?_normalEntries h hs]
  cases hinitial : s.initial? with
  | none => cases hvalues : normalValues normal entries s <;> simp [filled?, added?, hinitial, hvalues]
  | some start =>
    cases hvalues : normalValues normal entries s <;>
      simp [filled?, added?, hinitial, settled, hrep, hvalues]

/-! ## Messages that were read -/

/-- A message that stays what it is when it is written and read again. -/
structure Stable (p : Place) (v : Value) : Prop where
  dict : ∃ entries, v = .dict entries
  dict_normal : ∃ entries, normal p v = .dict entries
  sendable : lengthsFit p v = true → Sendable p v
  agrees : agrees p v (normal p v) = true
  encode_eq : encode p (normal p v) = encode p v
  size_eq : size p (normal p v) = size p v
  lengths_eq : lengthsFit p (normal p v) = lengthsFit p v

/-- What has been read is a value. -/
theorem got_ne_none (h : s.Got Stable v) : v ≠ .none := by
  rintro rfl
  rcases target_cases s with ⟨t, ht⟩ | ⟨q, hq⟩
  · have hof := (h.scalar t ht).1
    cases t <;> cases hof
  · obtain ⟨entries, hentries⟩ := (h.message q hq).dict
    cases hentries

section

variable (hregular : Slot.Regular slots) (hplain : ∀ s ∈ slots, s.isMessage = true → s.field.default = .none)
  (h : Partial (Slot.Got Stable) slots message) (hs : s ∈ slots)

include hregular hplain hs in
/-- A default that is in use belongs to a built-in type. -/
theorem exists_defaults (hdefault : s.field.default ≠ .none) :
    ∃ t, s.target.scalar? = some t ∧ t.Defaults s.field.default := by
  rcases target_cases s with ⟨t, ht⟩ | ⟨q, hq⟩
  · exact ⟨t, ht, (hregular.defaults s hs t ht).resolve_left hdefault⟩
  · exact absurd (hplain s hs (by rw [Slot.isMessage, hq]; rfl)) hdefault

include hregular hplain h hs in
/-- What a message that was read carries was read, or is a NaN that stands for itself. -/
theorem got_of_mem_carried (hv : v ∈ s.carried message) : s.Got Stable v := by
  have hholds := h.holds s hs
  unfold Slot.carried Slot.held at hv
  generalize Value.find? message s.field.name = found at hholds hv
  cases hholds with
  | absent hrep _ => simp [hrep, Slot.omits] at hv
  | items hrep hitems =>
    simp only [hrep, if_true, Option.getD_some] at hv
    exact hitems v hv
  | single hrep hgot =>
    simp only [hrep, Bool.false_eq_true, if_false, Option.getD_some] at hv
    split at hv
    · cases hv
    · rwa [List.mem_singleton.1 hv]
  | default hrep hdefault =>
    obtain ⟨t, ht, hd⟩ := exists_defaults hregular hplain hs hdefault
    have hscalar : s.isMessage = false := by rw [Slot.isMessage, Target.isMessage_eq, ht]; rfl
    simp only [hrep, Bool.false_eq_true, if_false, Option.getD_some] at hv
    split at hv
    · cases hv
    · next homits =>
      have hne : s.field.default.equals s.field.default = false := by
        simpa [Slot.omits, hscalar, hdefault] using homits
      rw [List.mem_singleton.1 hv]
      refine ⟨fun t' ht' => ?_, fun q hq => ?_⟩
      · rw [ht] at ht'
        cases ht'
        exact hd.of_not_equals hne
      · rw [hq] at ht
        cases ht

include hregular hplain h hs in
/-- The default goes without saying where it was left out. -/
theorem omits_default (hrep : s.field.repeated = false) (hdefault : s.field.default ≠ .none)
    (hnil : s.carried message = []) : s.omits s.field.default = true := by
  obtain ⟨t, ht, hd⟩ := exists_defaults hregular hplain hs hdefault
  have hscalar : s.isMessage = false := by rw [Slot.isMessage, Target.isMessage_eq, ht]; rfl
  have homits : s.omits (s.held message) = true := by
    rw [carried_of_single hrep] at hnil
    by_contra hne
    rw [if_neg hne] at hnil
    cases hnil
  suffices hequals : s.field.default.equals s.field.default = true by
    simp [Slot.omits, hscalar, hdefault, hequals]
  have hholds := h.holds s hs
  unfold Slot.held at homits
  generalize Value.find? message s.field.name = found at hholds homits
  cases hholds with
  | absent _ hnone => exact absurd hnone hdefault
  | default _ _ => simpa [Slot.omits, hscalar, hdefault] using homits
  | items hrep' _ =>
    rw [hrep] at hrep'
    cases hrep'
  | @single v _ hgot =>
    have hne := got_ne_none hgot
    have hequals : v.equals s.field.default = true := by
      simpa [Slot.omits, hscalar, hdefault, hne] using homits
    exact (hd.alike (hgot.scalar t ht).1).equals_self hequals

include hregular hplain h hs in
/-- A value that is carried does not go without saying in normal form either. -/
theorem omits_normalValue (hrep : s.field.repeated = false) (hv : s.carried message = [v]) :
    s.omits (normalValue normal s v) = false := by
  have hgot := got_of_mem_carried hregular hplain h hs (v := v) (by simp [hv])
  rcases target_cases s with ⟨t, ht⟩ | ⟨q, hq⟩
  · rw [normalValue_scalar ht, (hgot.scalar t ht).2]
    rw [carried_of_single hrep] at hv
    split at hv
    · cases hv
    · next homits =>
      cases hv
      exact Bool.eq_false_iff.2 homits
  · -- a message has no default, and its normal form is a message
    have hmessage : s.isMessage = true := by rw [Slot.isMessage, hq]; rfl
    obtain ⟨entries, hentries⟩ := (hgot.message q hq).dict_normal
    simp [Slot.omits, hmessage, normalValue, hq, hentries]

include hregular hplain h hs in
/-- The normal form carries the normal forms of what the message carries. -/
theorem carried_normalEntries :
    s.carried (normalEntries slots message) = normalValues normal message s := by
  cases hrep : s.field.repeated with
  | true =>
    have hfind := find?_normalEntries_list hregular.names hs hrep message
    simp only [Slot.carried, hrep, if_true, Slot.held, hfind, Option.getD_some]
  | false =>
    have hfind := find?_normalEntries_single hregular.names hs hrep message
    have hcarried := carried_of_single hrep message
    rw [carried_of_single hrep, Slot.held, hfind]
    by_cases homits : s.omits (s.held message) = true
    · rw [if_pos homits] at hcarried
      rw [normalValues, hcarried, List.map_nil, List.head?_nil, Option.none_or, initial?_of_single hrep]
      by_cases hdefault : s.field.default = .none
      · rw [if_pos hdefault]
        rfl
      · rw [if_neg hdefault, Option.map_some, Option.getD_some,
          if_pos (omits_default hregular hplain h hs hrep hdefault hcarried)]
    · rw [if_neg homits] at hcarried
      have hnormal := omits_normalValue hregular hplain h hs hrep hcarried
      rw [normalValues, hcarried, List.map_singleton, List.head?_cons, Option.some_or, Option.getD_some,
        hnormal]
      rfl

end

/-! ## Encodings of normal forms -/

section

variable (hgot : s.Got Stable v)

include hgot

/-- Writing a normal form writes the same bytes, given that it does so for embedded messages. -/
theorem fieldBytes_normal : fieldBytes encode s (normalValue normal s v) = fieldBytes encode s v := by
  rcases target_cases s with ⟨t, ht⟩ | ⟨q, hq⟩
  · rw [normalValue_scalar ht, (hgot.scalar t ht).2]
  · have hstable := hgot.message q hq
    simp only [fieldBytes, normalValue, hq, hstable.encode_eq, hstable.size_eq]

theorem fieldSize_normal : fieldSize size s (normalValue normal s v) = fieldSize size s v := by
  rcases target_cases s with ⟨t, ht⟩ | ⟨q, hq⟩
  · rw [normalValue_scalar ht, (hgot.scalar t ht).2]
  · have hstable := hgot.message q hq
    simp only [fieldSize, normalValue, hq, hstable.size_eq]

theorem valueLengthsFit_normal :
    valueLengthsFit lengthsFit s (normalValue normal s v) = valueLengthsFit lengthsFit s v := by
  rcases target_cases s with ⟨t, ht⟩ | ⟨q, hq⟩
  · rw [normalValue_scalar ht, (hgot.scalar t ht).2]
  · have hstable := hgot.message q hq
    simp only [valueLengthsFit, normalValue, hq, hstable.size_eq, hstable.lengths_eq]

end

/-- The values of a built-in type stay as they are. -/
theorem map_normalValue {values : List Value} {t : Scalar} (ht : s.target.scalar? = some t)
    (hgot : ∀ v ∈ values, s.Got Stable v) : values.map (normalValue normal s) = values := by
  refine (List.map_congr_left fun v hv => ?_).trans (List.map_id values)
  rw [normalValue_scalar ht, ((hgot v hv).scalar t ht).2]
  rfl

section

variable (hregular : Slot.Regular slots) (hplain : ∀ s ∈ slots, s.isMessage = true → s.field.default = .none)
  (h : Partial (Slot.Got Stable) slots message) (hs : s ∈ slots)

include hregular hplain h hs

/-- A field carries the same values in a message and in its normal form. -/
theorem slotBytes_normal :
    slotBytes encode (normalEntries slots message) s = slotBytes encode message s := by
  have hgot : ∀ v ∈ s.carried message, s.Got Stable v :=
    fun v hv => got_of_mem_carried hregular hplain h hs hv
  have hcarried := carried_normalEntries hregular hplain h hs
  cases ht : s.packedAs? with
  | some t =>
    rw [normalValues, map_normalValue (packedAs?_eq_some ht).2.1 hgot] at hcarried
    simp only [slotBytes, hcarried]
  | none =>
    rw [slotBytes_of_fields encode ht, slotBytes_of_fields encode ht, hcarried, normalValues,
      List.flatMap_map, List.flatMap_def, List.flatMap_def]
    exact congrArg _ (List.map_congr_left fun v hv => fieldBytes_normal (hgot v hv))

/-- Sizes do not tell a message from its normal form. -/
theorem slotSize_normal : slotSize size (normalEntries slots message) s = slotSize size message s := by
  have hgot : ∀ v ∈ s.carried message, s.Got Stable v :=
    fun v hv => got_of_mem_carried hregular hplain h hs hv
  have hcarried := carried_normalEntries hregular hplain h hs
  cases ht : s.packedAs? with
  | some t =>
    rw [normalValues, map_normalValue (packedAs?_eq_some ht).2.1 hgot] at hcarried
    simp only [slotSize, hcarried]
  | none =>
    simp only [slotSize, ht, hcarried, normalValues, total_map]
    exact total_congr fun v hv => fieldSize_normal (hgot v hv)

theorem slotLengthsFit_normal :
    slotLengthsFit lengthsFit (normalEntries slots message) s = slotLengthsFit lengthsFit message s := by
  have hgot : ∀ v ∈ s.carried message, s.Got Stable v :=
    fun v hv => got_of_mem_carried hregular hplain h hs hv
  have hcarried := carried_normalEntries hregular hplain h hs
  have hvalues : (s.carried (normalEntries slots message)).all (valueLengthsFit lengthsFit s) =
      (s.carried message).all (valueLengthsFit lengthsFit s) := by
    rw [hcarried, normalValues, List.all_map, Bool.eq_iff_iff, List.all_eq_true, List.all_eq_true]
    refine forall₂_congr fun v hv => ?_
    rw [Function.comp_apply, valueLengthsFit_normal (hgot v hv)]
  unfold slotLengthsFit
  rw [hvalues]
  cases ht : s.packedAs? with
  | some t =>
    rw [normalValues, map_normalValue (packedAs?_eq_some ht).2.1 hgot] at hcarried
    simp only [hcarried]
  | none => rfl

end

/-! ## Agreement -/

theorem itemsAgree_congr {f g : Value → Value → Bool} {vs ws : List Value} (h : ∀ v ∈ vs, f v = g v) :
    itemsAgree f vs ws = itemsAgree g vs ws := by
  induction vs generalizing ws with
  | nil => cases ws <;> rfl
  | cons v vs ih =>
    cases ws with
    | nil => rfl
    | cons w ws => rw [itemsAgree, itemsAgree, h v (by simp), ih fun u hu => h u (by simp [hu])]

theorem itemsAgree_map {agree : Value → Value → Bool} {f : Value → Value} {vs : List Value}
    (h : ∀ v ∈ vs, agree v (f v) = true) : itemsAgree agree vs (vs.map f) = true := by
  induction vs with
  | nil => rfl
  | cons v vs ih => rw [List.map_cons, itemsAgree, h v (by simp), ih fun u hu => h u (by simp [hu])]; rfl

theorem inward_agrees : Inward messageAgrees := by
  intro f g slots entries hfg
  funext other
  have hvalue : ∀ (s : Slot) v, v.depth < (Value.dict entries).depth →
      valuesAgree f s v = valuesAgree g s v := by
    intro s v hv
    funext w
    simp only [valuesAgree, hfg _ v hv]
  have hslot : ∀ entries', slotAgrees f entries entries' = slotAgrees g entries entries' := by
    intro entries'
    funext s
    unfold slotAgrees
    split
    · rfl
    · next v w hv _ =>
      have hdepth := Value.depth_lt_of_find? hv
      split
      · split
        · next vs ws =>
          refine itemsAgree_congr fun u hu => hvalue s u ?_
          have hitem := Value.depth_le_of_mem_items hu
          rw [Value.depth] at hdepth
          omega
        · rfl
      · rw [hvalue s v hdepth]
    · rfl
  cases other with
  | dict entries' => simp only [messageAgrees, hslot]
  | none | bool _ | int _ | float _ | str _ | bytes _ | list _ => rfl

theorem agrees_eq (hslots : p.slots = .ok slots) {entries entries' : List (Value × Value)} :
    agrees p (.dict entries) (.dict entries') = (keysKnown slots entries && keysKnown slots entries' &&
      slots.all (slotAgrees agrees entries entries')) := by
  rw [agrees, fold_eq inward_agrees hslots]
  rfl

/-- A value that was read agrees with its normal form. -/
theorem valuesAgree_normal (hgot : s.Got Stable v) :
    valuesAgree agrees s v (normalValue normal s v) = true := by
  rcases target_cases s with ⟨t, ht⟩ | ⟨q, hq⟩
  · rw [normalValue_scalar ht, (hgot.scalar t ht).2]
    rcases scalar_cases ht with htarget | ⟨-, q, htarget⟩ <;> simp [valuesAgree, htarget]
  · simpa only [valuesAgree, normalValue, hq] using (hgot.message q hq).agrees

/-- What goes without saying though it is something is equal to a default. -/
theorem of_omits (homits : s.omits v = true) (hne : v ≠ .none) :
    s.field.default ≠ .none ∧ v.equals s.field.default = true := by
  simp only [Slot.omits, hne, decide_false, Bool.false_or, Bool.and_eq_true, decide_eq_true_eq] at homits
  exact ⟨homits.1.2, homits.2⟩

/-- A value that was left out agrees with the default. -/
theorem agrees_default {t : Scalar} (ht : s.target.scalar? = some t) (halike : v.Alike s.field.default)
    (hequals : v.equals s.field.default = true) :
    (valuesAgree agrees s v s.field.default || areZeros s v s.field.default) = true := by
  rcases halike.eq_of_equals hequals with heq | ⟨x, y, hx, hy, hxzero, hyzero⟩
  · rw [← heq]
    rcases scalar_cases ht with htarget | ⟨-, q, htarget⟩ <;> simp [valuesAgree, htarget]
  · rw [hx, hy]
    simp [areZeros, hy, hxzero, hyzero]

section

variable (hregular : Slot.Regular slots) (hplain : ∀ s ∈ slots, s.isMessage = true → s.field.default = .none)
  (h : Partial (Slot.Got Stable) slots message) (hs : s ∈ slots)

include hregular hplain h hs

/-- Every field of a message agrees with that of its normal form. -/
theorem slotAgrees_normal : slotAgrees agrees message (normalEntries slots message) s = true := by
  have hholds := h.holds s hs
  cases hrep : s.field.repeated with
  | true =>
    obtain ⟨items, hfind, hitems⟩ := hholds.list hrep
    have hcarried : s.carried message = items := by simp [Slot.carried, hrep, Slot.held, hfind]
    have hnormal := find?_normalEntries_list hregular.names hs hrep message
    rw [normalValues, hcarried] at hnormal
    simp only [slotAgrees, hfind, hnormal, hrep, if_true]
    exact itemsAgree_map fun v hv => valuesAgree_normal (hitems v hv)
  | false =>
    have hcarried := carried_of_single hrep message
    have hnormal := find?_normalEntries_single hregular.names hs hrep message
    rw [normalValues, initial?_of_single hrep] at hnormal
    cases hfind : Value.find? message s.field.name with
    | none =>
      have hheld : s.held message = .none := by rw [Slot.held, hfind]; rfl
      have hdefault : s.field.default = .none := by
        rw [hfind] at hholds
        cases hholds with
        | absent _ hdefault => exact hdefault
      have homits : s.omits .none = true := by simp [Slot.omits]
      rw [hcarried, hheld, homits, hdefault] at hnormal
      simp only [slotAgrees, hfind, hnormal]
      rfl
    | some v =>
      have hheld : s.held message = v := by rw [Slot.held, hfind]; rfl
      rw [hheld] at hcarried
      by_cases homits : s.omits v = true
      · -- the value was left out, and the default took its place
        have hne : v ≠ .none := by
          rw [hfind] at hholds
          cases hholds with
          | default _ hdefault => exact hdefault
          | single _ hgot => exact got_ne_none hgot
          | items hrep' _ => exact Value.noConfusion
        obtain ⟨hdefault, hequals⟩ := of_omits homits hne
        obtain ⟨t, ht, hd⟩ := exists_defaults hregular hplain hs hdefault
        have halike : v.Alike s.field.default := by
          rw [hfind] at hholds
          cases hholds with
          | default _ _ => exact hd.self
          | single _ hgot => exact hd.alike (hgot.scalar t ht).1
          | items hrep' _ =>
            rw [hrep] at hrep'
            cases hrep'
        rw [hcarried, if_pos homits, if_neg hdefault] at hnormal
        simp only [slotAgrees, hfind, hnormal, hrep, List.map_nil, List.head?_nil, Option.none_or,
          Option.map_some, Bool.false_eq_true, if_false]
        exact agrees_default ht halike hequals
      · have hgot := got_of_mem_carried hregular hplain h hs (v := v) (by simp [hcarried, homits])
        rw [hcarried, if_neg homits] at hnormal
        simp only [slotAgrees, hfind, hnormal, hrep, List.map_singleton, List.head?_cons, Option.some_or,
          Bool.false_eq_true, if_false, valuesAgree_normal hgot, Bool.true_or]

omit hplain in
/-- What was read is written, unless it goes without saying. -/
theorem isPresent_of_read (hrep : s.field.repeated = false) :
    isPresent s (s.held message) = !s.omits (s.held message) := by
  have hholds := h.holds s hs
  apply isPresent_eq
  intro t ht
  unfold Slot.held
  generalize Value.find? message s.field.name = found at hholds
  cases hholds with
  | absent _ _ => exact .inl rfl
  | default _ hdefault => exact .inr (.inr ((hregular.defaults s hs t ht).resolve_left hdefault).self)
  | single _ hgot =>
    exact .inr ((hregular.defaults s hs t ht).imp_right fun hd => hd.alike (hgot.scalar t ht).1)
  | items hrep' _ =>
    rw [hrep] at hrep'
    cases hrep'

end

/-! ## Whole messages -/

/-- A message is stable if the values that were read for its slots are. -/
theorem stable_of_partial (hslots : p.slots = .ok slots) (hregular : Slot.Regular slots)
    (hplain : ∀ s ∈ slots, s.isMessage = true → s.field.default = .none)
    (h : Partial (Slot.Got Stable) slots message) : Stable p (.dict message) := by
  have hnormal : normal p (.dict message) = .dict (normalEntries slots message) := normal_eq hslots
  constructor
  case dict => exact ⟨message, rfl⟩
  case dict_normal => exact ⟨_, hnormal⟩
  case encode_eq =>
    rw [hnormal, encode_eq hslots, encode_eq hslots, List.flatMap_def, List.flatMap_def]
    exact congrArg _ (List.map_congr_left fun s hs => slotBytes_normal hregular hplain h hs)
  case size_eq =>
    rw [hnormal, size_eq hslots, size_eq hslots]
    exact total_congr fun s hs => slotSize_normal hregular hplain h hs
  case lengths_eq =>
    rw [hnormal, lengthsFit_eq hslots, lengthsFit_eq hslots, Bool.eq_iff_iff, List.all_eq_true,
      List.all_eq_true]
    exact forall₂_congr fun s hs => by rw [slotLengthsFit_normal hregular hplain h hs]
  case agrees =>
    rw [hnormal, agrees_eq hslots, h.keys.keysKnown, (keyed_normalEntries slots message).keysKnown,
      Bool.true_and, Bool.true_and, List.all_eq_true]
    exact fun s hs => slotAgrees_normal hregular hplain h hs
  case sendable =>
    intro hlengths
    rw [lengthsFit_eq hslots, List.all_eq_true] at hlengths
    have hgot : ∀ s ∈ slots, ∀ v ∈ s.carried message, s.Got Stable v :=
      fun s hs v hv => got_of_mem_carried hregular hplain h hs hv
    have hwritable : Writable slots message := {
      regular := hregular
      lengths := hlengths
      lists := by
        intro s hs hrep
        obtain ⟨items, hfind, -⟩ := (h.holds s hs).list hrep
        exact .inr ⟨items, by rw [Slot.held, hfind]; rfl⟩
      present := fun s hs hrep => isPresent_of_read hregular h hs hrep
      typed := fun s hs t ht v hv => ((hgot s hs v hv).scalar t ht).1 }
    refine .intro hslots hwritable fun s hs q hq v hv => ?_
    apply ((hgot s hs v hv).message q hq).sendable
    have hlength := hwritable.value hs hv
    simp only [valueLengthsFit, hq, Bool.and_eq_true] at hlength
    exact hlength.2

/-- What is read is stable, where slots are regular and messages have no defaults. -/
theorem read_stable {Good : Place → Prop} {bad : Fault → Prop} (policy : Policy Good bad)
    (hgood : Regular Good)
    (hplain : ∀ p slots, Good p → p.slots = .ok slots → ∀ s ∈ slots, s.isMessage = true →
      s.field.default = .none)
    (hp : Good p) {stop : Value} {c c' : Cursor} (hstop : ∀ e, Cursor.stopAt stop c = .error e → bad e)
    (hread : read p stop c = .ok v c') : Stable p v := by
  have hends := readNested_yields (Q := Stable) policy
    (fun p slots message hp hslots h =>
      stable_of_partial hslots (hgood.slots p slots hp hslots) (hplain p slots hp hslots)
        (h (hgood.slots p slots hp hslots).names))
    _ hp (Nat.lt_succ_self _) hstop
  exact (hends.of_ok ((read_apply p stop c).symm.trans hread)).1

end Codec

end ProtoScribe
