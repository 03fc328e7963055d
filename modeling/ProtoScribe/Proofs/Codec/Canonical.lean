import ProtoScribe.Proofs.Codec.Evolution

/-!
# Messages with the same normal form

The encoding of a message is determined by its normal form, but for one thing: a NaN differs from
everything, also from a default that is the same NaN. It is written where it is held, and it is in the
normal form either way. So two messages with the same normal form have the same encoding if they set the
same slots with this default (`Sendable.encode_eq_of_normal`).

The argument goes slot by slot. Equal normal forms give equal normal values for every slot
(`normalValues_eq`), and values with equal normal forms are encoded alike: scalars because a NaN loses
nothing that is written (`slotBytes_scalar`), messages by induction.
-/

namespace ProtoScribe.Codec

variable {p : Place} {slots : List Slot} {s : Slot} {v w : Value} {entries entries' : List (Value × Value)}

/-! ## Slots whose default is NaN -/

def defaultsToNaN (s : Slot) : Bool :=
  match s.field.default with
  | .float x => x.isNaN
  | _ => false

/-- Whether two messages both set a slot or both do not, if NaN is its default; and so do the messages
that they hold for the slot, one by one. -/
def slotSetAlike (embedded : Place → Value → Value → Bool) (entries entries' : List (Value × Value))
    (s : Slot) : Bool :=
  match s.target with
  | .message q => itemsAgree (embedded q) (s.carried entries) (s.carried entries')
  | .enumeration _ | .scalar _ =>
    !defaultsToNaN s || (s.carried entries).isEmpty == (s.carried entries').isEmpty

/-- Whether a message with given slots and a value set the same slots with NaN as default. -/
def messageSetAlike (embedded : Place → Value → Value → Bool) (slots : List Slot)
    (entries : List (Value × Value)) (other : Value) : Bool :=
  match other with
  | .dict entries' => slots.all (slotSetAlike embedded entries entries')
  | _ => false

/-- Whether two messages set the same slots with NaN as default, also in the messages inside. -/
def setAlike : Place → Value → Value → Bool := fold (fun _ => false) messageSetAlike

/-- Comparing messages looks at the messages inside them only, so the recursion can be unfolded. -/
theorem inward_setAlike : Inward messageSetAlike := by
  intro f g slots entries hfg
  funext other
  have hslot : ∀ entries', slotSetAlike f entries entries' = slotSetAlike g entries entries' := by
    intro entries'
    funext s
    unfold slotSetAlike
    split
    · apply itemsAgree_congr
      intro v hv
      exact hfg _ v (Slot.depth_of_mem_carried hv)
    · rfl
    · rfl
  cases other with
  | dict entries' => simp only [messageSetAlike, hslot]
  | none | bool _ | int _ | float _ | str _ | bytes _ | list _ => rfl

theorem setAlike_eq (hslots : p.slots = .ok slots) :
    setAlike p (.dict entries) (.dict entries') = slots.all (slotSetAlike setAlike entries entries') := by
  rw [setAlike, fold_eq inward_setAlike hslots]
  rfl

/-- Where the default is not a number, a field that is carried on one side only makes a difference. -/
theorem isEmpty_eq_of_setAlike (h : slotSetAlike setAlike entries entries' s = true) {t : Scalar}
    (ht : s.target.scalar? = some t) (hnan : defaultsToNaN s = true) :
    (s.carried entries).isEmpty = (s.carried entries').isEmpty := by
  unfold slotSetAlike at h
  rcases scalar_cases ht with htarget | ⟨-, q, htarget⟩ <;> simpa [htarget, hnan] using h

/-! ## Equal normal values -/

/-- A value that is carried has the default as its normal form only if that is NaN. -/
theorem default_eq_nan {t : Scalar} (ht : s.target.scalar? = some t) (hd : t.Defaults s.field.default)
    (hof : isOf t v = true) (homits : s.omits v = false) (hnormal : normalScalar t v = s.field.default) :
    defaultsToNaN s = true := by
  have hscalar : s.isMessage = false := by rw [Slot.isMessage, Target.isMessage_eq, ht]; rfl
  rcases normalScalar_eq hof with hself | ⟨x, y, -, hy, -, hnan⟩
  · -- the value is the default, and it would go without saying if it were equal to itself
    have hv : v = s.field.default := hself.symm.trans hnormal
    have hne : s.field.default.equals s.field.default = false := by
      rw [hv] at homits
      have hnone : s.field.default ≠ .none := by
        intro hnone
        rw [hnone] at hd
        cases hd
      simpa [Slot.omits, hscalar, hnone] using homits
    unfold defaultsToNaN
    generalize s.field.default = d at hd hne
    cases hd with
    | bool b => simp [Value.equals] at hne
    | int n _ => simp [Value.equals] at hne
    | str s => simp [Value.equals] at hne
    | float _ _ => simpa [Value.equals, Binary64.equals] using hne
  · rw [defaultsToNaN, ← hnormal, hy]
    exact hnan

/-- The normal form of a message that can be sent is a dictionary. -/
theorem Sendable.exists_normal (h : Sendable p v) : ∃ entries, normal p v = .dict entries := by
  cases h with
  | intro hslots _ _ => exact ⟨_, normal_eq hslots⟩

/-- A message that sets a slot to the default beside one that does not set it: the default is NaN. -/
theorem default_eq_nan_of_carried (h : Writable slots entries) (hs : s ∈ slots)
    (hinside : ∀ q, s.target = .message q → ∀ v ∈ s.carried entries, Sendable q v)
    (hplain : ∀ entries, s.field.default ≠ .dict entries) (hrep : s.field.repeated = false)
    (hv : s.carried entries = [v]) (hstart : s.initial?.map Prod.snd = some (normalValue normal s v)) :
    ∃ t, s.target.scalar? = some t ∧ defaultsToNaN s = true := by
  have hmem : v ∈ s.carried entries := by simp [hv]
  rw [initial?_of_single hrep] at hstart
  split at hstart
  · cases hstart
  · next hdefault =>
    have hnormal : normalValue normal s v = s.field.default := (Option.some.inj hstart).symm
    rcases target_cases s with ⟨t, ht⟩ | ⟨q, hq⟩
    · rw [carried_of_single hrep] at hv
      split at hv
      · cases hv
      · next homits =>
        cases hv
        have hd := (h.regular.defaults s hs t ht).resolve_left hdefault
        rw [normalValue_scalar ht] at hnormal
        exact ⟨t, ht, default_eq_nan ht hd (h.typed s hs t ht _ hmem) (Bool.eq_false_iff.2 homits) hnormal⟩
    · -- the normal form of a message is a message, which no default is
      obtain ⟨inner, hinner⟩ := (hinside q hq v hmem).exists_normal
      simp only [normalValue, hq, hinner] at hnormal
      exact absurd hnormal.symm (hplain inner)

section

variable (h : Writable slots entries) (h' : Writable slots entries') (hs : s ∈ slots)
  (hinside : ∀ q, s.target = .message q → ∀ v ∈ s.carried entries, Sendable q v)
  (hinside' : ∀ q, s.target = .message q → ∀ v ∈ s.carried entries', Sendable q v)
  (hplain : ∀ entries, s.field.default ≠ .dict entries)
  (halike : slotSetAlike setAlike entries entries' s = true)

include h h' hs hinside hinside' hplain halike

/-- Messages with the same normal form carry values with the same normal forms, if they set the same
slots with NaN as default. -/
theorem normalValues_eq (hnormal : normalEntries slots entries = normalEntries slots entries') :
    normalValues normal entries s = normalValues normal entries' s := by
  have hnames := h.regular.names
  cases hrep : s.field.repeated with
  | true =>
    have hlist := find?_normalEntries_list hnames hs hrep entries
    rw [hnormal, find?_normalEntries_list hnames hs hrep entries'] at hlist
    injection hlist with hlist
    injection hlist with hlist
    exact hlist.symm
  | false =>
    have hsingle := find?_normalEntries_single hnames hs hrep entries
    rw [hnormal, find?_normalEntries_single hnames hs hrep entries'] at hsingle
    have hcarried := carried_of_single hrep entries
    have hcarried' := carried_of_single hrep entries'
    unfold normalValues at hsingle ⊢
    split at hcarried <;> split at hcarried' <;>
      simp only [hcarried, hcarried', List.map_nil, List.map_singleton, List.head?_nil, List.head?_cons,
        Option.none_or, Option.some_or] at hsingle ⊢
    -- where only one of the two is set, it is set to the default, which is NaN then
    · obtain ⟨t, ht, hnan⟩ := default_eq_nan_of_carried h' hs hinside' hplain hrep hcarried' hsingle.symm
      have hempty := isEmpty_eq_of_setAlike halike ht hnan
      rw [hcarried, hcarried'] at hempty
      cases hempty
    · obtain ⟨t, ht, hnan⟩ := default_eq_nan_of_carried h hs hinside hplain hrep hcarried hsingle
      have hempty := isEmpty_eq_of_setAlike halike ht hnan
      rw [hcarried, hcarried'] at hempty
      cases hempty
    · exact congrArg (fun v => [v]) (Option.some.inj hsingle).symm

end

/-! ## Equal encodings -/

/-- A run of values is written as the run of their normal forms is. -/
theorem runBytes_normal {t : Scalar} {values : List Value} (tag : Int)
    (h : ∀ v ∈ values, isOf t v = true) :
    runBytes tag t (values.map (normalScalar t)) = runBytes tag t values := by
  have hsize : runSize t (values.map (normalScalar t)) = runSize t values := by
    rw [runSize, total_map]
    exact total_congr fun v _ => valueSize_normalScalar t v
  have hbytes : (values.map (normalScalar t)).flatMap (valueBytes t.coding) =
      values.flatMap (valueBytes t.coding) := by
    rw [List.flatMap_map, List.flatMap_def, List.flatMap_def]
    exact congrArg _ (List.map_congr_left fun v hv => valueBytes_normalScalar (h v hv))
  rw [runBytes, runBytes, hsize, hbytes]

theorem flatMap_fieldBytes_normal {t : Scalar} {values : List Value} (ht : s.target.scalar? = some t)
    (h : ∀ v ∈ values, isOf t v = true) :
    (values.map (normalScalar t)).flatMap (fieldBytes encode s) = values.flatMap (fieldBytes encode s) := by
  rw [List.flatMap_map, List.flatMap_def, List.flatMap_def]
  refine congrArg _ (List.map_congr_left fun v hv => ?_)
  rw [fieldBytes_scalar ht, fieldBytes_scalar ht, scalarBytes, scalarBytes, valueBytes_normalScalar (h v hv)]

/-- The bytes of a slot of a built-in type are those of the normal forms of what it carries. -/
theorem slotBytes_scalar {t : Scalar} (ht : s.target.scalar? = some t)
    (h : ∀ v ∈ s.carried entries, isOf t v = true) (h' : ∀ v ∈ s.carried entries', isOf t v = true)
    (hvalues : (s.carried entries).map (normalScalar t) = (s.carried entries').map (normalScalar t)) :
    slotBytes encode entries s = slotBytes encode entries' s := by
  cases hpacked : s.packedAs? with
  | none =>
    rw [slotBytes_of_fields encode hpacked, slotBytes_of_fields encode hpacked,
      ← flatMap_fieldBytes_normal ht h, hvalues, flatMap_fieldBytes_normal ht h']
  | some t' =>
    have htype : t' = t := by
      have hscalar := (packedAs?_eq_some hpacked).2.1
      rw [ht] at hscalar
      exact (Option.some.inj hscalar).symm
    subst htype
    have hlength := congrArg List.length hvalues
    rw [List.length_map, List.length_map] at hlength
    by_cases hnil : s.carried entries = []
    · have hnil' : s.carried entries' = [] := by
        apply List.eq_nil_of_length_eq_zero
        rw [← hlength, hnil, List.length_nil]
      rw [slotBytes_of_nil encode hnil, slotBytes_of_nil encode hnil']
    · have hne' : s.carried entries' ≠ [] := by
        intro hnil'
        apply hnil
        apply List.eq_nil_of_length_eq_zero
        rw [hlength, hnil', List.length_nil]
      rw [slotBytes_of_run encode hpacked hnil, slotBytes_of_run encode hpacked hne',
        ← runBytes_normal s.field.tag h, hvalues, runBytes_normal s.field.tag h']

/-- Messages in turn, when they are encoded alike one by one. -/
theorem flatMap_eq_of_itemsAgree {agree : Value → Value → Bool} {f : Value → Value} {g : Value → List UInt8}
    {vs ws : List Value} (hagree : itemsAgree agree vs ws = true) (hmap : vs.map f = ws.map f)
    (h : ∀ v ∈ vs, ∀ w ∈ ws, agree v w = true → f v = f w → g v = g w) :
    vs.flatMap g = ws.flatMap g := by
  induction vs generalizing ws with
  | nil =>
    cases ws with
    | nil => rfl
    | cons w ws => cases hmap
  | cons v vs ih =>
    cases ws with
    | nil => cases hmap
    | cons w ws =>
      rw [itemsAgree, Bool.and_eq_true] at hagree
      injection hmap with hhead htail
      rw [List.flatMap_cons, List.flatMap_cons, h v (by simp) w (by simp) hagree.1 hhead]
      congr 1
      apply ih hagree.2 htail
      intro u hu u' hu'
      exact h u (by simp [hu]) u' (by simp [hu'])

/-- The encoding of a message is determined by its normal form and by which of the slots with NaN as
default are set. -/
theorem Sendable.encode_eq_of_normal {Good : Place → Prop} (hgood : Evolving Good)
    (hv : Sendable p v) (hw : Sendable p w) (hp : Good p) (hnormal : normal p v = normal p w)
    (halike : setAlike p v w = true) : encode p v = encode p w := by
  induction hv generalizing w with
  | @intro p slots entries hslots h hinside ih =>
    cases hw with
    | @intro _ slots' entries' hslots' h' hinside' =>
      obtain rfl : slots = slots' := Except.ok.inj (hslots.symm.trans hslots')
      rw [normal_eq hslots, normal_eq hslots] at hnormal
      rw [setAlike_eq hslots, List.all_eq_true] at halike
      injection hnormal with hnormal
      rw [encode_eq hslots, encode_eq hslots, List.flatMap_def, List.flatMap_def]
      refine congrArg _ (List.map_congr_left fun s hs => ?_)
      have hvalues := normalValues_eq h h' hs (hinside s hs) (hinside' s hs) (hgood.plain p slots s hp hslots hs)
        (halike s hs) hnormal
      rcases target_cases s with ⟨t, ht⟩ | ⟨q, hq⟩
      · rw [normalValues, normalValues, funext (normalValue_scalar ht normal)] at hvalues
        exact slotBytes_scalar ht (h.typed s hs t ht) (h'.typed s hs t ht) hvalues
      · have hpacked : s.packedAs? = none := by
          simp [Slot.packedAs?, hq, Target.scalar?]
        have hitems := halike s hs
        simp only [slotSetAlike, hq] at hitems
        rw [slotBytes_of_fields encode hpacked, slotBytes_of_fields encode hpacked]
        apply flatMap_eq_of_itemsAgree hitems hvalues
        intro u hu u' hu' hset hsame
        simp only [normalValue, hq] at hsame
        -- the lengths in front are those of the encodings, so they are the same as well
        have hbytes := ih s hs q hq u hu (hinside' s hs q hq u' hu')
          (hgood.regular.embedded p slots s q hp hslots hs hq) hsame hset
        have hlength := (hinside s hs q hq u hu).length
        have hlength' := (hinside' s hs q hq u' hu').length
        simp only [fieldBytes, hq, ← hlength, ← hlength', hbytes]

end ProtoScribe.Codec
