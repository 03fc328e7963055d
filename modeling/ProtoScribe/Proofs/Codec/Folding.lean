import ProtoScribe.Codec.Conform
import ProtoScribe.Codec.Encode
import ProtoScribe.Codec.Normal
import ProtoScribe.Proofs.Value

/-!
# Functions by recursion on messages

`Codec.fold` recurses with a bound on depth, and a message is deeper than what is inside it. So a body
that looks only at what is inside (`Inward`) is all there is to know about a fold: `fold_eq` is its
equation without the bound. From it come the equations of `conforms`, `size`, `encode`, `lengthsFit`
and `normal`.
-/

namespace ProtoScribe

/-! ## What is inside a message -/

namespace Slot

variable {s : Slot} {entries : List (Value × Value)} {v : Value}

/-- What a message holds is less deep than the message. -/
theorem depth_held (s : Slot) (entries : List (Value × Value)) :
    (s.held entries).depth < (Value.dict entries).depth := by
  unfold held
  cases hfind : Value.find? entries s.field.name with
  | none => simp [Value.depth]
  | some v => exact Value.depth_lt_of_find? hfind

theorem depth_of_mem_held {items : List Value} (h : s.held entries = .list items) (hv : v ∈ items) :
    v.depth < (Value.dict entries).depth := by
  have hheld := depth_held s entries
  have hitems := Value.depth_le_of_mem_items hv
  rw [h, Value.depth] at hheld
  omega

/-- So are the values that a field carries. -/
theorem depth_of_mem_carried (h : v ∈ s.carried entries) : v.depth < (Value.dict entries).depth := by
  unfold carried at h
  split at h
  · split at h
    · next items hitems => exact depth_of_mem_held hitems h
    · cases h
  · split at h
    · cases h
    · rw [List.mem_singleton.1 h]
      exact depth_held s entries

end Slot

namespace Codec

/-! ## Folds -/

section

variable {β : Type} {otherwise : β} {body : (Place → Value → β) → List Slot → List (Value × Value) → β}

/-- A body that looks at nothing but what is inside the message. -/
def Inward (body : (Place → Value → β) → List Slot → List (Value × Value) → β) : Prop :=
  ∀ f g slots entries, (∀ q w, w.depth < (Value.dict entries).depth → f q w = g q w) →
    body f slots entries = body g slots entries

/-- Any two depths above that of the message give the same. -/
theorem foldNested_depth (hbody : Inward body) {d d' : Nat} {p : Place} {v : Value} (hd : v.depth < d)
    (hd' : v.depth < d') : foldNested otherwise body d p v = foldNested otherwise body d' p v := by
  induction d generalizing d' p v with
  | zero => omega
  | succ d ih =>
    -- the other depth has a level left as well, so both sides open one level
    obtain ⟨d', rfl⟩ := Nat.exists_eq_succ_of_ne_zero (by omega : d' ≠ 0)
    unfold foldNested
    split
    · next slots entries _ =>
      refine hbody _ _ slots entries fun q w hw => ?_
      exact ih (by omega) (by omega)
    · rfl

/-- The recursion over a message, without its limit: a body that goes inward is given the fold itself. -/
theorem fold_eq (hbody : Inward body) {p : Place} {slots : List Slot} (hslots : p.slots = .ok slots)
    (entries : List (Value × Value)) :
    fold otherwise body p (.dict entries) = body (fold otherwise body) slots entries := by
  unfold fold foldNested
  simp only [hslots]
  refine hbody _ _ slots entries fun q w hw => ?_
  exact foldNested_depth hbody hw (Nat.lt_succ_self _)

/-- What a fold makes of something is `otherwise`, unless it is a message of a type with slots. -/
theorem message_of_fold_ne {p : Place} {v : Value} (h : fold otherwise body p v ≠ otherwise) :
    ∃ slots entries, p.slots = .ok slots ∧ v = .dict entries := by
  unfold fold foldNested at h
  split at h
  · next slots entries hslots => exact ⟨slots, entries, hslots, rfl⟩
  · exact absurd rfl h

end

variable {p : Place} {slots : List Slot} {entries : List (Value × Value)}

/-! ## Well-typed messages -/

theorem fits_congr {f g : Place → Value → Bool} {v : Value} (h : ∀ q, f q v = g q v) (s : Slot) :
    fits f s v = fits g s v := by
  unfold fits
  simp only [h]

theorem inward_conforms :
    Inward fun (embedded : Place → Value → Bool) slots entries => slots.all (slotFits embedded entries) := by
  intro f g slots entries h
  have hslot : slotFits f entries = slotFits g entries := by
    funext s
    have hheld := fits_congr (fun q => h q _ (s.depth_held entries)) s
    unfold slotFits
    split
    · rfl
    · next items hitems _ =>
      rw [Bool.eq_iff_iff, List.all_eq_true, List.all_eq_true]
      refine forall₂_congr fun v hv => ?_
      rw [fits_congr (fun q => h q v (Slot.depth_of_mem_held hitems hv)) s]
    · rfl
    · exact hheld
  simp only [hslot]

/-- A well-typed message has entries that fit the slots of its type. -/
theorem of_conforms {v : Value} (h : conforms p v = true) :
    ∃ slots entries, p.slots = .ok slots ∧ v = .dict entries ∧
      ∀ s ∈ slots, slotFits conforms entries s = true := by
  have hne : conforms p v ≠ false := by simp [h]
  obtain ⟨slots, entries, hslots, rfl⟩ := message_of_fold_ne hne
  rw [conforms, fold_eq inward_conforms hslots, ← conforms] at h
  exact ⟨slots, entries, hslots, rfl, List.all_eq_true.1 h⟩

/-- What a well-typed message carries for a slot fits the slot. -/
theorem fits_of_mem_carried {s : Slot} {v : Value} (h : slotFits conforms entries s = true)
    (hv : v ∈ s.carried entries) : fits conforms s v = true := by
  unfold Slot.carried at hv
  unfold slotFits at h
  split at hv
  · next hrep =>
    split at hv
    · next items hitems =>
      rw [hitems, hrep] at h
      exact List.all_eq_true.1 h v hv
    · cases hv
  · next hrep =>
    split at hv
    · cases hv
    · next homits =>
      rw [List.mem_singleton.1 hv]
      split at h
      · next hnone =>
        rw [hnone] at homits
        simp [Slot.omits] at homits
      · next hrep' => exact absurd hrep' hrep
      · cases h
      · exact h

/-! ## Encodings -/

theorem total_congr {α : Type} {f g : α → Nat} {as : List α} (h : ∀ a ∈ as, f a = g a) :
    total f as = total g as := by
  induction as with
  | nil => rfl
  | cons a as ih => rw [total, total, h a (by simp), ih fun b hb => h b (by simp [hb])]

theorem total_map {α β : Type} (f : β → Nat) (g : α → β) (as : List α) :
    total f (as.map g) = total (fun a => f (g a)) as := by
  induction as with
  | nil => rfl
  | cons a as ih => rw [List.map_cons, total, total, ih]

theorem length_flatMap {α β : Type} {f : α → List β} {g : α → Nat} {as : List α}
    (h : ∀ a ∈ as, (f a).length = g a) : (as.flatMap f).length = total g as := by
  induction as with
  | nil => rfl
  | cons a as ih =>
    rw [List.flatMap_cons, List.length_append, total, h a (by simp), ih fun b hb => h b (by simp [hb])]

theorem inward_size :
    Inward fun (embedded : Place → Value → Nat) slots entries =>
      total (slotSize embedded entries) slots := by
  intro f g slots entries h
  have hslot : slotSize f entries = slotSize g entries := by
    funext s
    have hfields : total (fieldSize f s) (s.carried entries) = total (fieldSize g s) (s.carried entries) := by
      refine total_congr fun v hv => ?_
      simp only [fieldSize, h _ v (Slot.depth_of_mem_carried hv)]
    unfold slotSize
    split
    · rfl
    · rfl
    · rw [hfields]
  simp only [hslot]

theorem inward_encode :
    Inward fun (embedded : Place → Value → List UInt8) slots entries =>
      slots.flatMap (slotBytes embedded entries) := by
  intro f g slots entries h
  have hslot : slotBytes f entries = slotBytes g entries := by
    funext s
    have hfields : (s.carried entries).flatMap (fieldBytes f s) =
        (s.carried entries).flatMap (fieldBytes g s) := by
      rw [List.flatMap_def, List.flatMap_def]
      refine congrArg _ (List.map_congr_left fun v hv => ?_)
      simp only [fieldBytes, h _ v (Slot.depth_of_mem_carried hv)]
    unfold slotBytes
    split
    · rfl
    · rfl
    · rw [hfields]
  simp only [hslot]

theorem inward_lengthsFit :
    Inward fun (embedded : Place → Value → Bool) slots entries =>
      slots.all (slotLengthsFit embedded entries) := by
  intro f g slots entries h
  have hslot : slotLengthsFit f entries = slotLengthsFit g entries := by
    funext s
    have hvalues : (s.carried entries).all (valueLengthsFit f s) =
        (s.carried entries).all (valueLengthsFit g s) := by
      rw [Bool.eq_iff_iff, List.all_eq_true, List.all_eq_true]
      refine forall₂_congr fun v hv => ?_
      simp only [valueLengthsFit, h _ v (Slot.depth_of_mem_carried hv)]
    simp only [slotLengthsFit, hvalues]
  simp only [hslot]

/-- The size of a message is that of its fields. -/
theorem size_eq (hslots : p.slots = .ok slots) :
    size p (.dict entries) = total (slotSize size entries) slots :=
  fold_eq inward_size hslots entries

/-- The bytes of a message are those of its fields, in the order of the scope. -/
theorem encode_eq (hslots : p.slots = .ok slots) :
    encode p (.dict entries) = slots.flatMap (slotBytes encode entries) :=
  fold_eq inward_encode hslots entries

/-- The lengths in a message fit if those in its fields do. -/
theorem lengthsFit_eq (hslots : p.slots = .ok slots) :
    lengthsFit p (.dict entries) = slots.all (slotLengthsFit lengthsFit entries) :=
  fold_eq inward_lengthsFit hslots entries

/-! ## Normal forms -/

theorem inward_normal :
    Inward fun embedded slots entries => Value.dict (slots.filterMap (filled? embedded entries) ++
      slots.filterMap (added? embedded entries)) := by
  intro f g slots entries h
  have hvalues : normalValues f entries = normalValues g entries := by
    funext s
    refine List.map_congr_left fun v hv => ?_
    simp only [normalValue, h _ v (Slot.depth_of_mem_carried hv)]
  have hfilled : filled? f entries = filled? g entries := by
    funext s
    simp only [filled?, hvalues]
  have hadded : added? f entries = added? g entries := by
    funext s
    simp only [added?, hvalues]
  simp only [hfilled, hadded]

/-- The normal form lists the fields with a start first, and the fields that were set behind them. -/
theorem normal_eq (hslots : p.slots = .ok slots) :
    normal p (.dict entries) = .dict (slots.filterMap (filled? normal entries) ++
      slots.filterMap (added? normal entries)) :=
  fold_eq inward_normal hslots entries

end Codec

end ProtoScribe
