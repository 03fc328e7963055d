import ProtoScribe.Codec.Evolution
import ProtoScribe.Proofs.Codec.Reencoding
import ProtoScribe.Proofs.Scope.Pruning

/-!
# Reading messages of schemas with more or fewer fields

A reader that knows a part of the fields skips the others, and one that knows more leaves them as they
start. `evolution_narrow` and `evolution_widen` say what this comes to at every depth: the normal form of
the message, restricted to the fields of the reader or extended by them. What slots do for each other is
the same in both: `received_eq` takes the messages inside along, and `mapMessages_settled` what a slot
settles on.
-/

namespace ProtoScribe

variable {p : Place} {slots : List Slot} {s s' : Slot} {v : Value} {entries : List (Value × Value)}

namespace Slot

/-! ## Messages in slots -/

theorem mapMessage_congr {f g : Place → Value → Value} (h : ∀ q, f q v = g q v) (s : Slot) :
    s.mapMessage f v = s.mapMessage g v := by
  unfold mapMessage
  split
  · exact h _
  · rfl

theorem mapMessages_congr {f g : Place → Value → Value} (h : ∀ q w, w.depth ≤ v.depth → f q w = g q w)
    (s : Slot) : s.mapMessages f v = s.mapMessages g v := by
  unfold mapMessages
  split
  · split
    · next items =>
      congr 1
      refine List.map_congr_left fun w hw => mapMessage_congr (fun q => h q w ?_) s
      have hitem := Value.depth_le_of_mem_items hw
      rw [Value.depth]
      omega
    · rfl
  · exact mapMessage_congr (fun q => h q v (Nat.le_refl _)) s

/-- Only messages are changed. -/
theorem mapMessage_of_ne {f : Place → Value → Value} (h : ∀ entries, v ≠ .dict entries) (s : Slot) :
    s.mapMessage f v = v := by
  unfold mapMessage
  split
  · exact absurd rfl (h _)
  · rfl

end Slot

namespace Codec

theorem fold_none {body : (Place → Value → Value) → List Slot → List (Value × Value) → Value} (q : Place) :
    fold .none body q .none = .none := by
  unfold fold foldNested
  cases q.slots <;> rfl

/-- Restricting goes through the messages inside a message only. -/
theorem inward_restrict :
    Inward fun embedded slots entries => Value.dict (entries.filterMap (restricted? embedded slots)) := by
  intro f g slots entries h
  refine congrArg Value.dict (List.filterMap_congr fun entry hentry => ?_)
  have hdepth := Value.depth_le_of_mem_entries hentry
  have hmap : ∀ s : Slot, s.mapMessages f entry.2 = s.mapMessages g entry.2 :=
    Slot.mapMessages_congr fun q w hw => h q w (by rw [Value.depth]; omega)
  simp only [restricted?, hmap]

/-- What is left of a message: the entries of known fields, each restricted in turn. -/
theorem restrict_eq (hslots : p.slots = .ok slots) :
    restrict p (.dict entries) = .dict (entries.filterMap (restricted? restrict slots)) :=
  fold_eq inward_restrict hslots entries

/-- Extending goes through the messages inside a message only. -/
theorem inward_extend :
    Inward fun embedded slots entries => Value.dict (slots.filterMap (extendedOr? embedded entries) ++
      slots.filterMap (extendedOnly? embedded entries)) := by
  intro f g slots entries h
  have hextended : extended? f entries = extended? g entries := by
    funext s
    unfold extended?
    cases hfind : Value.find? entries s.field.name with
    | none => rfl
    | some v =>
      have hdepth := Value.depth_lt_of_find? hfind
      exact congrArg some (Slot.mapMessages_congr (fun q w hw => h q w (by omega)) s)
  have hor : extendedOr? f entries = extendedOr? g entries := by
    funext s
    simp only [extendedOr?, hextended]
  have honly : extendedOnly? f entries = extendedOnly? g entries := by
    funext s
    simp only [extendedOnly?, hextended]
  simp only [hor, honly]

/-- Fields with a start come first, in their order, and the fields that were set come behind them. -/
theorem extend_eq (hslots : p.slots = .ok slots) :
    extend p (.dict entries) = .dict (slots.filterMap (extendedOr? extend entries) ++
      slots.filterMap (extendedOnly? extend entries)) :=
  fold_eq inward_extend hslots entries

/-! ## What arrives -/

theorem mapMessage_of_scalar {t : Scalar} (f : Place → Value → Value) (h : s.target.scalar? = some t)
    (v : Value) : s.mapMessage f v = v := by
  unfold Slot.mapMessage
  split
  · next hq =>
    rw [hq] at h
    cases h
  · rfl

/-- A normal form is a message, or nothing. -/
theorem normal_cases (p : Place) (v : Value) : (∃ entries, normal p v = .dict entries) ∨ normal p v = .none := by
  by_cases h : normal p v = .none
  · exact .inr h
  · obtain ⟨slots, entries, hslots, rfl⟩ := message_of_fold_ne h
    exact .inl ⟨_, normal_eq hslots⟩

/-- A field that receives nothing keeps what it starts with. -/
theorem settled_nil {key start : Value} (h : s.initial? = some (key, start)) : settled s start [] = start := by
  unfold Slot.initial? at h
  unfold settled
  split
  · next hrep =>
    rw [if_pos hrep] at h
    cases h
    rfl
  · rfl

section

variable {R : Place → Place → Prop} {f : Place → Value → Value}

/-- What is read of a message inside, if `f` is made of the normal form of messages. -/
theorem received_eq (hnone : ∀ q, f q .none = .none) (h : s.Narrows R s') (v : Value) :
    received (fun q q' v => f q' (normal q v)) s s' v = s'.mapMessage f (normalValue normal s v) := by
  rcases target_cases s with ⟨t, ht⟩ | ⟨q, hq⟩
  · rw [received_scalar _ ht, mapMessage_of_scalar f (h.scalar.trans ht), normalValue_scalar ht]
  · obtain ⟨q', hq', -⟩ := h.message q hq
    simp only [received, normalValue, Slot.mapMessage, hq, hq']
    rcases normal_cases q v with ⟨entries, hentries⟩ | hnormal
    · rw [hentries]
    · rw [hnormal, hnone]

/-- What a slot settles on is taken along value by value. A default is no message. -/
theorem mapMessages_settled {key start : Value} (hstart : s.initial? = some (key, start))
    (hplain : ∀ entries, s.field.default ≠ .dict entries) (values : List Value) :
    s.mapMessages f (settled s start values) = settled s start (values.map (s.mapMessage f)) := by
  unfold Slot.initial? at hstart
  unfold Slot.mapMessages settled
  cases hrep : s.field.repeated with
  | true => rfl
  | false =>
    simp only [hrep, Bool.false_eq_true, if_false] at hstart ⊢
    split at hstart
    · cases hstart
    · cases hstart
      cases values with
      | nil => exact Slot.mapMessage_of_ne hplain s
      | cons v rest => rfl

/-- The values that a message has sent for a slot, as they arrive. -/
def arrival (f : Place → Value → Value) (entries : List (Value × Value)) (s s' : Slot) :
    Slot × List Value :=
  (s', (s.carried entries).map (received (fun q q' v => f q' (normal q v)) s s'))

/-- What arrives for a field that both sides know is what was sent, with the messages in it narrowed. -/
theorem arrival_eq (hnone : ∀ q, f q .none = .none) (h : s.Narrows R s') :
    arrival f entries s s' = (s', (normalValues normal entries s).map (s'.mapMessage f)) := by
  rw [arrival, normalValues, List.map_map]
  exact congrArg (Prod.mk s') (List.map_congr_left fun v _ => received_eq hnone h v)

/-- A slot that starts filled receives what the normal form has for it. -/
theorem filledWith_arrival (hnone : ∀ q, f q .none = .none) (h : s.Narrows R s')
    (hplain : ∀ entries, s'.field.default ≠ .dict entries) :
    filledWith (arrival f entries s s') =
      (filled? normal entries s).map fun entry => (entry.1, s'.mapMessages f entry.2) := by
  rw [arrival_eq hnone h, filledWith, filled?, h.initial?, Option.map_map]
  cases hstart : s.initial? with
  | none => rfl
  | some start =>
    rw [← h.initial?] at hstart
    have hsettled : settled s start.2 (normalValues normal entries s) =
        settled s' start.2 (normalValues normal entries s) := by rw [settled, settled, h.field]
    simp only [Option.map_some, Function.comp_apply, hsettled, mapMessages_settled hstart hplain]

/-- So does one that does not start filled. -/
theorem addedWith_arrival (hnone : ∀ q, f q .none = .none) (h : s.Narrows R s') :
    addedWith (arrival f entries s s') =
      (added? normal entries s).map fun entry => (entry.1, s'.mapMessages f entry.2) := by
  rw [arrival_eq hnone h]
  unfold addedWith added?
  simp only [h.initial?]
  cases hstart : s.initial? with
  | some start => rfl
  | none =>
    have hrep : s'.field.repeated = false := by
      rw [h.field]
      cases hrep : s.field.repeated with
      | false => rfl
      | true => simp [Slot.initial?, hrep] at hstart
    have hmap : ∀ v, s'.mapMessages f v = s'.mapMessage f v := by
      intro v
      unfold Slot.mapMessages
      rw [if_neg (by simp [hrep])]
    simp only [List.head?_map, Option.map_map, hmap, h.field]
    rfl

end

/-! ## A reader that knows fewer fields -/

section

variable (keep : Value → Value → Bool) {Good : Place → Prop} {name : Value}

/-- A field that is kept stays as it is, except that messages in it are pruned. -/
theorem narrows_of_kept (h : s.kept? keep name = some s') :
    s.Narrows (fun q q' => q' = q.prune keep) s' := by
  unfold Slot.kept? at h
  split at h
  · cases h
    refine ⟨rfl, Target.prune_scalar? keep s.target, fun q hq => ⟨q.prune keep, ?_, rfl⟩⟩
    rw [Slot.prune, hq]
    rfl
  · cases h

/-- Dropping fields keeps the others apart and their tags in range. -/
theorem regular_kept (h : Slot.Regular slots) : Slot.Regular (slots.filterMap (Slot.kept? keep name)) :=
  h.filterMap fun _ _ => narrows_of_kept keep

/-- The slot of a name among those that are kept. -/
theorem find?_kept (h : Slot.Apart slots) (hs : s ∈ slots) :
    (slots.filterMap (Slot.kept? keep name)).find? (·.field.name = s.field.name) = s.kept? keep name := by
  -- a slot of that name is what was kept of this one
  have hsame : ∀ u' ∈ slots.filterMap (Slot.kept? keep name), u'.field.name = s.field.name →
      s.kept? keep name = some u' := by
    intro u' hu' hname
    obtain ⟨u, hu, hkept⟩ := List.mem_filterMap.1 hu'
    have hfield := (narrows_of_kept keep hkept).field
    have hequal : u = s := by
      refine h.eq_of_sameKey hu hs ?_
      rw [← hfield, hname]
      exact Value.sameKey_self _
    rw [← hequal, hkept]
  cases hfind : (slots.filterMap (Slot.kept? keep name)).find? (·.field.name = s.field.name) with
  | some u' =>
    have hname : u'.field.name = s.field.name := by simpa using List.find?_some hfind
    exact (hsame u' (List.mem_of_find?_eq_some hfind) hname).symm
  | none =>
    cases hkept : s.kept? keep name with
    | none => rfl
    | some s' =>
      have hne := List.find?_eq_none.1 hfind s' (List.mem_filterMap.2 ⟨s, hs, hkept⟩)
      rw [(narrows_of_kept keep hkept).field] at hne
      simp at hne

/-- Places with regular slots, where defaults are no messages. -/
structure Evolving (Good : Place → Prop) : Prop where
  regular : Regular Good
  plain : ∀ p slots s, Good p → p.slots = .ok slots → s ∈ slots →
    ∀ entries, s.field.default ≠ .dict entries

/-- A slot of a writer, where the reader knows what is kept. -/
def narrow (name : Value) (s : Slot) : Meeting :=
  match s.kept? keep name with
  | some s' => .both s s'
  | none => .sent s

theorem writer?_narrow (s : Slot) : (narrow keep name s).writer? = some s := by
  unfold narrow
  cases s.kept? keep name <;> rfl

theorem reader?_narrow (s : Slot) : (narrow keep name s).reader? = s.kept? keep name := by
  unfold narrow
  cases s.kept? keep name <;> rfl

/-- A reader with fewer fields gets the arrivals for the fields that it has kept. -/
theorem arrival?_narrow (f : Place → Value → Value) (s : Slot) :
    (narrow keep name s).arrival? (fun q q' v => f q' (normal q v)) entries =
      (s.kept? keep name).map (arrival f entries s) := by
  unfold narrow
  cases s.kept? keep name <;> rfl

theorem both_mem_narrow (h : .both s s' ∈ slots.map (narrow keep name)) :
    s ∈ slots ∧ s.kept? keep name = some s' := by
  obtain ⟨u, hu, hmeeting⟩ := List.mem_map.1 h
  unfold narrow at hmeeting
  split at hmeeting
  · next hkept =>
    cases hmeeting
    exact ⟨hu, hkept⟩
  · cases hmeeting

theorem sent_mem_narrow (h : .sent s ∈ slots.map (narrow keep name)) :
    s ∈ slots ∧ s.kept? keep name = none := by
  obtain ⟨u, hu, hmeeting⟩ := List.mem_map.1 h
  unfold narrow at hmeeting
  split at hmeeting
  · cases hmeeting
  · next hkept =>
    cases hmeeting
    exact ⟨hu, hkept⟩

/-- The slots of a good place keep what they embed good. -/
theorem Evolving.narrows (h : Evolving Good) (hp : Good p) (hslots : p.slots = .ok slots) (hs : s ∈ slots)
    (hkept : s.kept? keep name = some s') :
    s.Narrows (fun q q' => Good q ∧ q' = q.prune keep) s' := by
  obtain ⟨hfield, hscalar, hmessage⟩ := narrows_of_kept keep hkept
  refine ⟨hfield, hscalar, fun q hq => ?_⟩
  obtain ⟨q', hq', hprune⟩ := hmessage q hq
  exact ⟨q', hq', h.regular.embedded p slots s q hp hslots hs hq, hprune⟩

/-- An entry for a slot, restricted to what is kept, is what `take` makes of what arrives. -/
theorem bind_restricted? (hapart : Slot.Apart slots) (hs : s ∈ slots) {found : Option (Value × Value)}
    (hkey : ∀ entry, found = some entry → entry.1 = s.field.name)
    {take : Slot × List Value → Option (Value × Value)}
    (htake : ∀ s', s.kept? keep name = some s' → take (arrival restrict entries s s') =
      found.map fun entry => (entry.1, s'.mapMessages restrict entry.2)) :
    found.bind (restricted? restrict (slots.filterMap (Slot.kept? keep name))) =
      ((s.kept? keep name).map (arrival restrict entries s)).bind take := by
  have hrestricted : ∀ entry, found = some entry →
      restricted? restrict (slots.filterMap (Slot.kept? keep name)) entry =
        (s.kept? keep name).map fun s' => (entry.1, s'.mapMessages restrict entry.2) := by
    intro entry hentry
    rw [restricted?, hkey entry hentry, find?_kept keep hapart hs]
  cases hkept : s.kept? keep name with
  | none =>
    cases found with
    | none => rfl
    | some entry =>
      rw [Option.bind_some, hrestricted entry rfl, hkept]
      rfl
  | some s' =>
    rw [Option.map_some, Option.bind_some, htake s' hkept]
    cases found with
    | none => rfl
    | some entry =>
      rw [Option.bind_some, hrestricted entry rfl, hkept]
      rfl

/-- The normal form of a message, restricted to what is kept, is what arrives. -/
theorem restrict_normalEntries (hapart : Slot.Apart slots)
    (hplain : ∀ s ∈ slots, ∀ entries, s.field.default ≠ .dict entries) (entries : List (Value × Value)) :
    (normalEntries slots entries).filterMap (restricted? restrict (slots.filterMap (Slot.kept? keep name))) =
      assembled ((slots.map (narrow keep name)).filterMap
        (Meeting.arrival? (fun q q' v => restrict q' (normal q v)) entries)) := by
  rw [List.filterMap_map, normalEntries, assembled, List.filterMap_append]
  simp only [List.filterMap_filterMap, Function.comp_apply, arrival?_narrow]
  congr 1
  · refine List.filterMap_congr fun s hs => bind_restricted? keep hapart hs (fun _ => filled?_key) ?_
    intro s' hkept
    refine filledWith_arrival fold_none (narrows_of_kept keep hkept) ?_
    rw [(narrows_of_kept keep hkept).field]
    exact hplain s hs
  · refine List.filterMap_congr fun s hs => bind_restricted? keep hapart hs (fun _ => added?_key) ?_
    intro s' hkept
    exact addedWith_arrival fold_none (narrows_of_kept keep hkept)

/-- A reader that knows a part of the fields reads the normal form without the others. -/
theorem evolution_narrow (h : Evolving Good) :
    Evolution (fun p p' => Good p ∧ p' = p.prune keep) (fun p p' v => restrict p' (normal p v)) where
  meet := by
    rintro p _ slots ⟨hp, rfl⟩ hslots hregular
    have hwriter : (slots.map (narrow keep p.scope.name)).filterMap Meeting.writer? = slots := by
      simp [List.filterMap_map, writer?_narrow]
    have hreader : (slots.map (narrow keep p.scope.name)).filterMap Meeting.reader? =
        slots.filterMap (Slot.kept? keep p.scope.name) := by
      simp only [List.filterMap_map, Function.comp_def, reader?_narrow]
    have hslots' := Place.slots_prune keep hslots
    refine ⟨slots.map (narrow keep p.scope.name), hwriter.symm, by rw [hreader, hslots'], ⟨?_, ?_, ?_⟩, ?_⟩
    · rw [hreader]
      exact regular_kept keep hregular
    · intro s s' hboth
      obtain ⟨hs, hkept⟩ := both_mem_narrow keep hboth
      exact h.narrows keep hp hslots hs hkept
    · intro s hsent u hu htag
      obtain ⟨hs, hnone⟩ := sent_mem_narrow keep hsent
      rw [hreader] at hu
      obtain ⟨u₀, hu₀, hkept⟩ := List.mem_filterMap.1 hu
      -- the reader would know this slot by its tag, but what it knows was kept
      rw [(narrows_of_kept keep hkept).field] at htag
      rw [hregular.eq_of_tag hu₀ hs htag, hnone] at hkept
      cases hkept
    · intro entries _
      have hnormal : normal p (.dict entries) = .dict (normalEntries slots entries) := normal_eq hslots
      have hplain := fun s hs => h.plain p slots s hp hslots hs
      simp only [hnormal]
      rw [restrict_eq hslots', restrict_normalEntries keep hregular.names hplain]

/-! ## A reader that knows more fields -/

/-- A slot of a reader, where the writer knows what is kept. -/
def widen (name : Value) (s : Slot) : Meeting :=
  match s.kept? keep name with
  | some s' => .both s' s
  | none => .missing s

/-- What arrives for a slot when the writer knows what is kept. -/
def arrivalKept (name : Value) (f : Place → Value → Value) (entries : List (Value × Value)) (s : Slot) :
    Slot × List Value :=
  match s.kept? keep name with
  | some s' => arrival f entries s' s
  | none => (s, [])

theorem writer?_widen (s : Slot) : (widen keep name s).writer? = s.kept? keep name := by
  unfold widen
  cases s.kept? keep name <;> rfl

theorem reader?_widen (s : Slot) : (widen keep name s).reader? = some s := by
  unfold widen
  cases s.kept? keep name <;> rfl

/-- A reader with more fields gets an arrival for each of its fields, maybe an empty one. -/
theorem arrival?_widen (f : Place → Value → Value) (s : Slot) :
    (widen keep name s).arrival? (fun q q' v => f q' (normal q v)) entries =
      some (arrivalKept keep name f entries s) := by
  unfold widen arrivalKept
  cases s.kept? keep name <;> rfl

theorem both_mem_widen (h : .both s' s ∈ slots.map (widen keep name)) :
    s ∈ slots ∧ s.kept? keep name = some s' := by
  obtain ⟨u, hu, hmeeting⟩ := List.mem_map.1 h
  unfold widen at hmeeting
  split at hmeeting
  · next hkept =>
    cases hmeeting
    exact ⟨hu, hkept⟩
  · cases hmeeting

/-- A writer with fewer fields sends none that the reader does not know. -/
theorem sent_notMem_widen : .sent s ∉ slots.map (widen keep name) := by
  intro h
  obtain ⟨u, -, hmeeting⟩ := List.mem_map.1 h
  unfold widen at hmeeting
  split at hmeeting <;> cases hmeeting

/-- The normal form of a message has nothing for a slot that was left out. -/
theorem find?_dropped (hapart : Slot.Apart slots) (hs : s ∈ slots) (hdropped : s.kept? keep name = none)
    (entries : List (Value × Value)) :
    Value.find? (normalEntries (slots.filterMap (Slot.kept? keep name)) entries) s.field.name = none := by
  refine Value.find?_eq_none fun entry hentry => ?_
  obtain ⟨u', hu', hkey⟩ := keyed_normalEntries _ entries entry hentry
  obtain ⟨u, hu, hkept⟩ := List.mem_filterMap.1 hu'
  rw [hkey, (narrows_of_kept keep hkept).field]
  cases hsame : u.field.name.sameKey s.field.name with
  | false => rfl
  | true =>
    rw [hapart.eq_of_sameKey hu hs hsame, hdropped] at hkept
    cases hkept

section

variable {R : Place → Place → Prop} {message : List (Value × Value)}

/-- What the normal form of a message has for a slot, in the extension. -/
theorem extendedOr?_eq (h : s'.Narrows R s) (hfind : Value.find? message s.field.name =
      ((filled? normal entries s').map Prod.snd).or ((added? normal entries s').map Prod.snd)) :
    extendedOr? extend message s =
      (filled? normal entries s').map fun entry => (entry.1, s.mapMessages extend entry.2) := by
  rw [extendedOr?, extended?, hfind, filled?, h.initial?]
  cases s'.initial? <;> rfl

theorem extendedOnly?_eq (h : s'.Narrows R s) (hfind : Value.find? message s.field.name =
      ((filled? normal entries s').map Prod.snd).or ((added? normal entries s').map Prod.snd)) :
    extendedOnly? extend message s =
      (added? normal entries s').map fun entry => (entry.1, s.mapMessages extend entry.2) := by
  unfold extendedOnly? extended?
  rw [hfind, filled?, added?, h.initial?]
  cases s'.initial? with
  | some start => rfl
  | none =>
    simp only [Option.map_none, Option.none_or, Option.map_map, h.field]
    rfl

end

section

variable (hregular : Slot.Regular slots) (hplain : ∀ s ∈ slots, ∀ entries, s.field.default ≠ .dict entries)

include hregular in
/-- The normal form under fewer fields has the entries of those that are kept. -/
theorem find?_kept_normal (hs : s ∈ slots) (hkept : s.kept? keep name = some s')
    (entries : List (Value × Value)) :
    Value.find? (normalEntries (slots.filterMap (Slot.kept? keep name)) entries) s.field.name =
      ((filled? normal entries s').map Prod.snd).or ((added? normal entries s').map Prod.snd) := by
  rw [← (narrows_of_kept keep hkept).field]
  exact find?_normalEntries (regular_kept keep hregular).names (List.mem_filterMap.2 ⟨s, hs, hkept⟩) entries

include hregular hplain in
/-- Extending fills fields with a start as if nothing had arrived for the unknown ones. -/
theorem extendedOr?_arrival (hs : s ∈ slots) (entries : List (Value × Value)) :
    extendedOr? extend (normalEntries (slots.filterMap (Slot.kept? keep name)) entries) s =
      filledWith (arrivalKept keep name extend entries s) := by
  unfold arrivalKept
  cases hkept : s.kept? keep name with
  | some s' =>
    have hn := (narrows_of_kept keep hkept).symm
    rw [extendedOr?_eq hn (find?_kept_normal keep hregular hs hkept entries)]
    exact (filledWith_arrival fold_none hn (hplain s hs)).symm
  | none =>
    -- nothing was sent, and what nothing settles on is the start
    rw [extendedOr?, extended?, find?_dropped keep hregular.names hs hkept, filledWith]
    cases hstart : s.initial? with
    | none => rfl
    | some start => exact congrArg (fun v => some (start.1, v)) (settled_nil hstart).symm

include hregular in
/-- Extending adds fields without a start only where something has arrived. -/
theorem extendedOnly?_arrival (hs : s ∈ slots) (entries : List (Value × Value)) :
    extendedOnly? extend (normalEntries (slots.filterMap (Slot.kept? keep name)) entries) s =
      addedWith (arrivalKept keep name extend entries s) := by
  unfold arrivalKept
  cases hkept : s.kept? keep name with
  | some s' =>
    have hn := (narrows_of_kept keep hkept).symm
    rw [extendedOnly?_eq hn (find?_kept_normal keep hregular hs hkept entries)]
    exact (addedWith_arrival fold_none hn).symm
  | none =>
    unfold extendedOnly? addedWith
    rw [extended?, find?_dropped keep hregular.names hs hkept]
    rfl

end

/-- A reader that knows more fields reads the normal form with what these start with. -/
theorem evolution_widen (h : Evolving Good) (hslots : ∀ p, Good p → ∃ slots, p.slots = .ok slots) :
    Evolution (fun p' p => Good p ∧ p' = p.prune keep) (fun p' p v => extend p (normal p' v)) where
  meet := by
    rintro _ p slots' ⟨hp, rfl⟩ hslots' -
    -- the meetings are told by the slots of the reader; those of the writer are a part of them
    obtain ⟨slots, hslots⟩ := hslots p hp
    have hregular := h.regular.slots p slots hp hslots
    obtain rfl : slots' = slots.filterMap (Slot.kept? keep p.scope.name) := by
      rw [Place.slots_prune keep hslots] at hslots'
      exact (Except.ok.inj hslots').symm
    have hwriter : (slots.map (widen keep p.scope.name)).filterMap Meeting.writer? =
        slots.filterMap (Slot.kept? keep p.scope.name) := by
      simp only [List.filterMap_map, Function.comp_def, writer?_widen]
    have hreader : (slots.map (widen keep p.scope.name)).filterMap Meeting.reader? = slots := by
      simp [List.filterMap_map, reader?_widen]
    refine ⟨slots.map (widen keep p.scope.name), hwriter.symm, by rw [hreader, hslots], ⟨?_, ?_, ?_⟩, ?_⟩
    · rwa [hreader]
    · intro s' s hboth
      obtain ⟨hs, hkept⟩ := both_mem_widen keep hboth
      exact (h.narrows keep hp hslots hs hkept).symm
    · intro s hsent
      exact absurd hsent (sent_notMem_widen keep)
    · intro entries _
      have hnormal : normal (p.prune keep) (.dict entries) =
          .dict (normalEntries (slots.filterMap (Slot.kept? keep p.scope.name)) entries) := normal_eq hslots'
      have hplain := fun s hs => h.plain p slots s hp hslots hs
      have harrivals : (slots.map (widen keep p.scope.name)).filterMap
          (Meeting.arrival? (fun q q' v => extend q' (normal q v)) entries) =
            slots.map (arrivalKept keep p.scope.name extend entries) := by
        simp only [List.filterMap_map, Function.comp_def, arrival?_widen, List.filterMap_eq_map']
      simp only [hnormal, harrivals]
      rw [extend_eq hslots, assembled, List.filterMap_map, List.filterMap_map]
      congr 2
      · exact List.filterMap_congr fun s hs => extendedOr?_arrival keep hregular hplain hs entries
      · exact List.filterMap_congr fun s hs => extendedOnly?_arrival keep hregular hs entries

/-- Where fields are left out, slots are regular as well. -/
theorem Evolving.regular_prune (h : Evolving Good) (hslots : ∀ p, Good p → ∃ slots, p.slots = .ok slots) :
    Regular fun p' => ∃ p, Good p ∧ p' = p.prune keep := by
  have hkept : ∀ {p : Place} {slots' : List Slot}, Good p → (p.prune keep).slots = .ok slots' →
      ∃ slots, p.slots = .ok slots ∧ slots' = slots.filterMap (Slot.kept? keep p.scope.name) := by
    intro p slots' hp hslots'
    obtain ⟨slots, hslots⟩ := hslots p hp
    rw [Place.slots_prune keep hslots] at hslots'
    exact ⟨slots, hslots, (Except.ok.inj hslots').symm⟩
  constructor
  · rintro _ slots' ⟨p, hp, rfl⟩ hslots'
    obtain ⟨slots, hslots, rfl⟩ := hkept hp hslots'
    exact regular_kept keep (h.regular.slots p slots hp hslots)
  · rintro _ slots' s' q' ⟨p, hp, rfl⟩ hslots' hs' hq'
    obtain ⟨slots, hslots, rfl⟩ := hkept hp hslots'
    obtain ⟨s, hs, hsome⟩ := List.mem_filterMap.1 hs'
    obtain ⟨q, -, hq⟩ := (h.narrows keep hp hslots hs hsome).symm.message q' hq'
    exact ⟨q, hq⟩

end

end Codec

end ProtoScribe
