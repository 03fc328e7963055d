import ProtoScribe.Proofs.Codec.Encoding
import ProtoScribe.Proofs.Scope.Fields

/-!
# Defaults of fields

The default that is attached to a field is of the kind of its values, or there is none
(`slots_defaultFit`). The default was found from the tree before defaults were attached and the slot is
resolved in the tree afterwards, but resolution does not look at defaults.

With this, the slots of a message are regular if the fields of the schema have names and tags told
apart and tags in range (`slots_regular`).
-/

namespace ProtoScribe

/-! ## Literals -/

theorem Binary64.isNaN_ofPattern {negative : Bool} {pattern : Nat}
    (h : pattern ≤ Format.binary64.infinity) : (ofPattern negative pattern).isNaN = false := by
  have hinfinite : Format.binary64.infinity < 2 ^ 63 := by decide
  rw [isNaN, pattern_ofPattern (by omega)]
  exact decide_eq_false (by omega)

/-- Rounding a decimal gives a number. -/
theorem Decimal.isNaN_read (negative : Bool) (digits count : Nat) (exponent : Int) :
    (read negative digits count exponent).isNaN = false := by
  unfold read
  split
  · exact Binary64.isNaN_ofPattern (Nat.zero_le _)
  · split
    · exact Binary64.isNaN_ofPattern (Nat.le_refl _)
    · split
      · exact Binary64.isNaN_ofPattern (Nat.zero_le _)
      · exact Binary64.isNaN_ofPattern (Nat.min_le_right _ _)

/-- There is one NaN of each sign that a text can denote. -/
theorem Text.eq_nan_of_float? {literal : String} {x : Binary64} (h : float? literal = some x)
    (hnan : x.isNaN = true) : ∃ negative, x = .nan negative := by
  obtain ⟨plain, -, h⟩ := Option.bind_eq_some_iff.1 h
  have h : magnitude? (sign plain).1 (sign plain).2 = some x := h
  unfold magnitude? at h
  split at h
  · cases h
    rw [Binary64.infinity, Binary64.isNaN_ofPattern (Nat.le_refl _)] at hnan
    cases hnan
  · cases h
    rw [Binary64.infinity, Binary64.isNaN_ofPattern (Nat.le_refl _)] at hnan
    cases hnan
  · exact ⟨_, (Option.some.inj h).symm⟩
  · -- with or without a point, the digits are rounded
    simp only at h
    split at h
    all_goals
      split at h
      · cases h
      · obtain ⟨e, -, rfl⟩ := Option.map_eq_some_iff.1 h
        rw [Decimal.isNaN_read] at hnan
        cases hnan

/-! ## Defaults -/

/-- The value of an absent field belongs to the type. -/
theorem zeroValue_defaults (t : Scalar) : t.zeroValue = .none ∨ t.Defaults t.zeroValue := by
  cases t with
  | bytes => exact .inl rfl
  | double | float => exact .inr (.float rfl (by decide))
  | bool => exact .inr (.bool _)
  | string => exact .inr (.str _)
  | _ => exact .inr (.int _ rfl)

/-- The value that a literal denotes belongs to the type. -/
theorem castDefault_defaults {t : Scalar} {field d : Value} {type literal : String}
    (htype : Scalar.ofKeyword? type = some t) (hd : castDefault field type literal = .ok d) :
    t.Defaults d := by
  unfold castDefault at hd
  rw [htype] at hd
  cases t with
  | bytes | enum => cases hd
  | double | float =>
    simp only at hd
    split at hd
    · next x hx =>
      cases hd
      exact .float rfl (Text.eq_nan_of_float? hx)
    · cases hd
  | bool =>
    cases hd
    exact .bool _
  | string =>
    cases hd
    exact .str _
  | _ =>
    simp only at hd
    split at hd
    · cases hd
      exact .int _ rfl
    · cases hd

/-- Places that differ in defaults only resolve a reference to types of one kind. -/
theorem Place.resolve_kind {p p' : Place} (hbare : p.bare = p'.bare) (type : String) :
    (p.resolve type).map Place.kind = (p'.resolve type).map Place.kind := by
  have hresolve := congrArg (·.resolve type) hbare
  simp only [Place.resolve_bare] at hresolve
  have hkind := congrArg (Option.map Place.kind) hresolve
  simpa [Option.map_map, Function.comp_def] using hkind

/-- Whether the type of a field is named like a built-in type that has a zero. -/
def Field.hidesZero (f : Field) : Bool :=
  match f.type with
  | .str type => (Scalar.ofKeyword? type).any (· ≠ .bytes)
  | _ => false

/-- The value that a field has when it is absent, where its type is that of a slot. -/
theorem absentValue_defaults {version : Version} {p p' : Place} (hbare : p.bare = p'.bare) {f : Field}
    {type : String} {d : Value} {target : Target} {t : Scalar} (hd : f.absentValue version p type = .ok d)
    (htype : f.type.toText = .ok type) (htarget : p'.target f = .ok target)
    (ht : target.scalar? = some t) : d = .none ∨ t.Defaults d := by
  unfold Field.absentValue at hd
  rw [Place.resolve_kind hbare] at hd
  unfold Place.target at htarget
  rw [htype] at htarget
  simp only [bind, Except.bind] at htarget
  cases hresolve : p'.resolve type with
  | some q =>
    rw [hresolve] at hd htarget
    cases hkind : q.kind with
    | enumeration values =>
      simp only [hkind] at htarget
      cases htarget
      cases ht
      simp only [Option.map_some, hkind] at hd
      cases hd
      exact .inr (.int _ rfl)
    | message =>
      simp only [hkind] at htarget
      cases htarget
      cases ht
    | root =>
      simp only [hkind] at htarget
      cases htarget
  | none =>
    rw [hresolve] at hd htarget
    cases hkeyword : Scalar.ofKeyword? type with
    | none =>
      simp only [hkeyword] at htarget
      cases htarget
    | some t' =>
      simp only [hkeyword] at htarget
      cases htarget
      cases ht
      simp only [Option.map_none] at hd
      cases hexplicit : f.explicitDefault? version with
      | some literal =>
        simp only [hexplicit] at hd
        exact .inr (castDefault_defaults hkeyword hd)
      | none =>
        simp only [hexplicit, hkeyword] at hd
        cases hd
        exact zeroValue_defaults t

/-- The value that a field has when it is absent is no message. -/
theorem absentValue_ne_dict {version : Version} {p : Place} {f : Field} {type : String} {d : Value}
    (h : f.absentValue version p type = .ok d) (entries : List (Value × Value)) : d ≠ .dict entries := by
  have hdefaults : ∀ {t : Scalar}, t.Defaults d → d ≠ .dict entries := by
    rintro t hd rfl
    cases hd
  unfold Field.absentValue at h
  split at h
  · cases h
    simp
  · next literal _ =>
    cases hkeyword : Scalar.ofKeyword? type with
    | none =>
      simp only [castDefault, hkeyword] at h
      cases h
    | some t => exact hdefaults (castDefault_defaults hkeyword h)
  · cases hkeyword : Scalar.ofKeyword? type with
    | none =>
      simp only [hkeyword] at h
      cases h
      simp
    | some t =>
      simp only [hkeyword] at h
      cases h
      rcases zeroValue_defaults t with hnone | hd
      · simp [hnone]
      · exact hdefaults hd

/-! ## Keywords -/

/-- A keyword means a type declared under it. -/
theorem Place.Within.resolve_keyword {root : Scope} {p q : Place} (h : Within root p) {type : String}
    {t : Scalar} (hkeyword : Scalar.ofKeyword? type = some t) (hq : p.resolve type = some q) :
    ∃ o, Within root o ∧ .str type ∈ o.scope.labels := by
  have htype : t.keyword = type := by simpa using List.find?_some hkeyword
  have hdot : '.' ∉ type.toList := by
    rw [← htype]
    cases t <;> decide
  unfold Place.resolve at hq
  split at hq
  · next rest hrest =>
    rw [hrest] at hdot
    simp at hdot
  · obtain ⟨o, ho, hq⟩ := List.exists_of_findSome?_eq_some hq
    rw [Text.components_of_notMem hdot] at hq
    obtain ⟨c, hc, -⟩ := Option.bind_eq_some_iff.1 hq
    obtain ⟨scope, hscope, -⟩ := Option.map_eq_some_iff.1 hc
    refine ⟨o, h.chain o ho, List.mem_map.2 ⟨scope, ?_, ?_⟩⟩
    · exact List.mem_reverse.1 (List.mem_of_find?_eq_some hscope)
    · simpa using List.find?_some hscope

namespace Schema

open Place (Within)

variable {s : Schema} {root : Scope} {p : Place} {slots : List Slot}

/-- Whether the fields of every message have different tags, each with room for the wire type. -/
def wellTagged (s : Schema) : Bool :=
  s.allMessages.all fun m =>
    decide ((m.fields.map (·.tag)).Nodup) && m.fields.all fun f => 0 ≤ f.tag && f.tag < 2 ^ 61

/-- Whether no type of a schema has the name of a built-in type. -/
def keywordFree (s : Schema) : Bool :=
  (s.typeNames ++ s.allMessages.flatMap Message.typeNames).all fun
    | .str name => (Scalar.ofKeyword? name).isNone
    | _ => true

/-- The default of a field, and where it was found. -/
theorem fields_default (h : s.context = .ok root) (hp : Within root p) {f : Field}
    (hf : f ∈ p.scope.fields) :
    ∃ (p₀ : Place) (f₀ : Field) (type : String) (d : Value), p₀.bare = p.bare ∧ f₀.type.toText = .ok type ∧
      f₀.absentValue s.version p₀ type = .ok d ∧
      f = { f₀ with default := if f₀.repeated then .none else d } := by
  obtain ⟨plain, -, hattach⟩ := context_ok h
  obtain ⟨p₀, -, hbare, hfields⟩ := Scope.attach_origin plain hattach rfl p (Scope.mem_walk_iff.2 hp)
  obtain ⟨f₀, -, hdefault⟩ := Outcome.exists_left hfields hf
  obtain ⟨type, htype, hdefault⟩ := Outcome.bind_ok hdefault
  obtain ⟨d, hd, hdefault⟩ := Outcome.bind_ok hdefault
  cases hdefault
  exact ⟨p₀, f₀, type, d, hbare, htype, hd, rfl⟩

/-- The default of a slot, and where it was found. -/
theorem slots_default (h : s.context = .ok root) (hp : Within root p) (hslots : p.slots = .ok slots)
    {slot : Slot} (hslot : slot ∈ slots) :
    ∃ p₀ f type d, p₀.bare = p.bare ∧ f.type.toText = .ok type ∧ p.target f = .ok slot.target ∧
      f.absentValue s.version p₀ type = .ok d ∧
      slot.field.default = if f.repeated then .none else d := by
  obtain ⟨field, hfield, hequal, htarget⟩ := Outcome.exists_left (Place.slots_ok hslots) hslot
  obtain ⟨p₀, f, type, d, hbare, htype, hd, rfl⟩ := fields_default h hp hfield
  -- the type does not look at the default
  have htarget : p.target f = .ok slot.target := htarget
  exact ⟨p₀, f, type, d, hbare, htype, htarget, hd, by rw [hequal]⟩

theorem slots_defaultFit (h : s.context = .ok root) (hp : Within root p) (hslots : p.slots = .ok slots)
    {slot : Slot} (hslot : slot ∈ slots) : slot.DefaultFits := by
  intro t ht
  obtain ⟨p₀, f, type, d, hbare, htype, htarget, hd, hdefault⟩ := slots_default h hp hslots hslot
  rw [hdefault]
  cases f.repeated with
  | true => exact .inl rfl
  | false => exact absentValue_defaults hbare hd htype htarget ht

theorem slots_default_ne_dict (h : s.context = .ok root) (hp : Within root p) (hslots : p.slots = .ok slots)
    {slot : Slot} (hslot : slot ∈ slots) (entries : List (Value × Value)) :
    slot.field.default ≠ .dict entries := by
  obtain ⟨p₀, f, type, d, -, -, -, hd, hdefault⟩ := slots_default h hp hslots hslot
  rw [hdefault]
  cases f.repeated with
  | true => simp
  | false => exact absentValue_ne_dict hd entries

/-- A keyword means the built-in type, where no declared type has its name. -/
theorem resolve_keyword (h : s.context = .ok root) (hs : s.keywordFree = true) (hp : Within root p)
    {type : String} {t : Scalar} (hkeyword : Scalar.ofKeyword? type = some t) : p.resolve type = none := by
  cases hresolve : p.resolve type with
  | none => rfl
  | some q =>
    obtain ⟨o, ho, hlabel⟩ := hp.resolve_keyword hkeyword hresolve
    have hname : .str type ∈ s.typeNames ++ s.allMessages.flatMap Message.typeNames := by
      cases (context_declared h ho).declares with
      | root kind labels =>
        rw [labels] at hlabel
        exact List.mem_append_left _ hlabel
      | enumeration values kind labels =>
        rw [labels] at hlabel
        cases hlabel
      | message m mem kind labels fields =>
        rw [labels] at hlabel
        exact List.mem_append_right _ (List.mem_flatMap.2 ⟨m, mem, hlabel⟩)
    have hfree := List.all_eq_true.1 hs _ hname
    simp only [hkeyword] at hfree
    cases hfree

/-- A field with messages has no default, unless it is not repeated and its type is named like a built-in
type that has a zero. -/
theorem default_eq_none_iff (h : s.context = .ok root) (hp : Within root p) {f : Field} {q : Place}
    (hf : f ∈ p.scope.fields) (ht : p.target f = .ok (.message q)) :
    f.default = .none ↔ f.repeated = true ∨ f.hidesZero = false := by
  obtain ⟨p₀, f₀, type, d, hbare, htype, hd, rfl⟩ := fields_default h hp hf
  have htext : f₀.type = .str type := Value.toText_ok htype
  obtain ⟨hresolve, hkind⟩ := Place.resolve_of_target ht htype
  cases f₀.repeated with
  | true => simp
  | false =>
    unfold Field.absentValue at hd
    rw [Place.resolve_kind hbare, hresolve, Option.map_some, hkind] at hd
    have hdefault : d = .none ↔ f₀.hidesZero = false := by
      rw [Field.hidesZero, htext]
      cases hexplicit : f₀.explicitDefault? s.version with
      | none =>
        simp only [hexplicit] at hd
        cases hkeyword : Scalar.ofKeyword? type with
        | none =>
          rw [hkeyword] at hd
          cases hd
          simp [hkeyword]
        | some t =>
          rw [hkeyword] at hd
          cases hd
          cases t <;> simp [hkeyword, Scalar.zeroValue]
      | some literal =>
        simp only [hexplicit] at hd
        cases hkeyword : Scalar.ofKeyword? type with
        | none =>
          simp only [castDefault, hkeyword] at hd
          cases hd
        | some t =>
          have hne : d ≠ .none := by
            rintro rfl
            cases castDefault_defaults hkeyword hd
          have hbytes : t ≠ .bytes := by
            rintro rfl
            simp only [castDefault, hkeyword] at hd
            cases hd
          simp [hkeyword, hne, hbytes]
    show d = .none ↔ false = true ∨ f₀.hidesZero = false
    simpa using hdefault

/-- A field with messages has no default, where no type is named like a built-in one. -/
theorem slots_messageDefault (h : s.context = .ok root) (hs : s.keywordFree = true) (hp : Within root p)
    (hslots : p.slots = .ok slots) {slot : Slot} (hslot : slot ∈ slots) (hmessage : slot.isMessage = true) :
    slot.field.default = .none := by
  obtain ⟨q, hq⟩ : ∃ q, slot.target = .message q := by
    rcases Codec.target_cases slot with ⟨t, ht⟩ | hq
    · rw [Slot.isMessage, Target.isMessage_eq, ht] at hmessage
      cases hmessage
    · exact hq
  obtain ⟨f, hf, rfl, htarget⟩ := Outcome.exists_left (Place.slots_ok hslots) hslot
  rw [hq] at htarget
  refine (default_eq_none_iff h hp hf htarget).2 (.inr ?_)
  obtain ⟨type, htype, -⟩ := Outcome.bind_ok htarget
  rw [Field.hidesZero, Value.toText_ok htype]
  cases hkeyword : Scalar.ofKeyword? type with
  | none => simp [hkeyword]
  | some t =>
    have hresolve := (Place.resolve_of_target htarget htype).1
    rw [resolve_keyword h hs hp hkeyword] at hresolve
    cases hresolve

/-- The slots of a message are regular. -/
theorem slots_regular (h : s.context = .ok root) (hnames : s.fieldsApart = true)
    (htags : s.wellTagged = true) (hp : Within root p) (hkind : p.kind = .message)
    (hslots : p.slots = .ok slots) : Slot.Regular slots := by
  obtain ⟨m, hm, hfields⟩ := slots_declared h hp hkind hslots
  have htag : slots.map (·.field.tag) = m.fields.map (·.tag) := by
    have := congrArg (List.map (·.tag)) hfields
    simpa [Function.comp_def, Field.bare] using this
  have htagged := List.all_eq_true.1 htags m hm
  simp only [Bool.and_eq_true, decide_eq_true_eq] at htagged
  obtain ⟨hnodup, hrange⟩ := htagged
  constructor
  · exact slots_apart h hnames hp hkind hslots
  · rw [← htag] at hnodup
    exact List.pairwise_map.1 hnodup
  · intro slot hslot
    have hmem : slot.field.tag ∈ m.fields.map (·.tag) := by
      rw [← htag]
      exact List.mem_map_of_mem hslot
    obtain ⟨f, hf, hequal⟩ := List.mem_map.1 hmem
    have hf := List.all_eq_true.1 hrange f hf
    simpa [hequal] using hf
  · intro slot hslot
    exact slots_defaultFit h hp hslots hslot

end Schema

end ProtoScribe
