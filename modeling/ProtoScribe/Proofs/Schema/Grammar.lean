import ProtoScribe.Proofs.Outcome
import ProtoScribe.Proofs.Value
import ProtoScribe.Schema.Description

/-!
# The grammar of descriptions

Loading takes whatever it is given: an entry that counts as false stands for nothing, anything else is
iterated over, and text is searched for a key. What it accepts in the end is a plain grammar
(`Description.IsSchema`): lists of objects, down to the fields and the symbols. A description that follows
it spells out a schema (`Description.SpellsSchema`): the same declarations in the same order, at every
depth.

Of JSON values, iterating yields objects only if it is over a list (`Description.listing_of_load`). So a
list is the only thing that can stand in the place of one.
-/

namespace ProtoScribe

/-! ## JSON values -/

namespace Value

mutual

/-- Whether a value can be written as JSON: it has no byte strings in it, and all keys are texts. -/
def isJson : Value → Bool
  | .none | .bool _ | .int _ | .float _ | .str _ => true
  | .bytes _ => false
  | .list items => areJson items
  | .dict entries => membersAreJson entries

def areJson : List Value → Bool
  | [] => true
  | v :: rest => v.isJson && areJson rest

/-- Whether entries can be the members of a JSON object. -/
def membersAreJson : List (Value × Value) → Bool
  | [] => true
  | (.str _, v) :: rest => v.isJson && membersAreJson rest
  | _ :: _ => false

end

theorem isJson_of_mem {items : List Value} (h : areJson items = true) {v : Value} (hv : v ∈ items) :
    v.isJson = true := by
  induction items with
  | nil => cases hv
  | cons first rest ih =>
    rw [areJson, Bool.and_eq_true] at h
    rcases List.mem_cons.1 hv with rfl | hv
    · exact h.1
    · exact ih h.2 hv

theorem isJson_of_member {entries : List (Value × Value)} (h : membersAreJson entries = true)
    {entry : Value × Value} (hentry : entry ∈ entries) :
    (∃ key, entry.1 = .str key) ∧ entry.2.isJson = true := by
  induction entries with
  | nil => cases hentry
  | cons first rest ih =>
    obtain ⟨k, v⟩ := first
    cases k with
    | str key =>
      rw [membersAreJson, Bool.and_eq_true] at h
      rcases List.mem_cons.1 hentry with rfl | hentry
      · exact ⟨⟨key, rfl⟩, h.1⟩
      · exact ih h.2 hentry
    | _ => cases h

@[simp]
theorem sameKey_str (a b : String) : (Value.str a).sameKey (.str b) = decide (a = b) := by
  by_cases hab : a = b <;> simp [sameKey, equals, hab]

end Value

namespace Description

/-! ## The grammar -/

/-- The version that an entry names: none is the older one, and a version may be given by its number or by
either of its names. -/
inductive NamesVersion : Option Value → Version → Prop
  | missing : NamesVersion none .proto2
  | null : NamesVersion (some .none) .proto2
  | number {v : Value} {version : Version} : v.equals (.int version.number) = true →
    NamesVersion (some v) version
  | digit (version : Version) : NamesVersion (some (.str (toString version.number))) version
  | name (version : Version) : NamesVersion (some (.str ("proto" ++ toString version.number))) version

/-- An entry that lists declarations: it is missing, counts as false, or is a list of what `P` holds of. -/
inductive Listing (P : Value → Prop) : Option Value → Prop
  | missing : Listing P none
  | falsy {v : Value} : v.truthy = false → Listing P (some v)
  | list {vs : List Value} : (∀ v ∈ vs, P v) → Listing P (some (.list vs))

/-- An entry with members: it is missing, counts as false, or is an object all values of which `P` holds
of. -/
inductive Members (P : Value → Prop) : Option Value → Prop
  | missing : Members P none
  | falsy {v : Value} : v.truthy = false → Members P (some v)
  | object {es : List (Value × Value)} : (∀ entry ∈ es, P entry.2) → Members P (some (.dict es))

/-- The values that a list holds; anything else holds none. -/
def listed : Option Value → List Value
  | some (.list vs) => vs
  | _ => []

/-- The members of an object; anything else has none. -/
def members : Option Value → List (Value × Value)
  | some (.dict es) => es
  | _ => []

/-- The number of a symbol: an integer, or an object with one under `value`. -/
inductive IsNumber : Value → Int → Prop
  | direct (n : Int) : IsNumber (.int n) n
  | wrapped {es : List (Value × Value)} {n : Int} : get? es "value" = some (.int n) → IsNumber (.dict es) n

inductive IsEnum : Value → Prop
  | object {es : List (Value × Value)} : (get? es "name").isSome = true →
    Members (fun v => ∃ n, IsNumber v n) (get? es "values") → IsEnum (.dict es)

def isSet (entry : Option Value) : Bool := (entry.getD .none).truthy

/-- Whether a field with some entries is packed without asking: in the newer version, if it is repeated and
its options do not say. -/
def assumesPacked (version : Version) (es : List (Value × Value)) : Bool :=
  version = .proto3 && isSet (get? es "repeated") && (get? (members (get? es "options")) "packed").isNone

/-- The description of a field. A type that is a list or an object is refused only where it is asked
whether the field can be packed. -/
inductive IsField (version : Version) : Value → Prop
  | object {es : List (Value × Value)} {type tag : Value} {n : Int} : (get? es "name").isSome = true →
    get? es "type" = some type → get? es "tag" = some tag → tag.toInteger = .ok n →
    Members (fun _ => True) (get? es "options") →
    ¬ (assumesPacked version es = true ∧ type.isKey = false) → IsField version (.dict es)

inductive IsMessage (version : Version) : Value → Prop
  | object {es : List (Value × Value)} : (get? es "name").isSome = true →
    Listing (IsField version) (get? es "fields") → Listing IsEnum (get? es "enums") →
    Listing (IsMessage version) (get? es "messages") → IsMessage version (.dict es)

inductive IsSchema : Value → Prop
  | object {es : List (Value × Value)} {version : Version} : NamesVersion (get? es "syntax") version →
    Listing IsEnum (get? es "enums") → Listing (IsMessage version) (get? es "messages") →
    IsSchema (.dict es)

/-! ## What descriptions spell out -/

/-- The description of an enumeration has its name and its symbols with their numbers, in order. -/
inductive SpellsEnum : Value → Enumeration → Prop
  | object {es : List (Value × Value)} {e : Enumeration} : get? es "name" = some e.name →
    List.Forall₂ (fun entry symbol => entry.1 = .str symbol.1 ∧ IsNumber entry.2 symbol.2)
      (members (get? es "values")) e.values →
    SpellsEnum (.dict es) e

/-- The options of a field as they would be written in the source of a schema. -/
def literals (es : List (Value × Value)) : List (String × String) :=
  es.map fun entry => (entry.1.plain, literalOf entry.2)

/-- The options of a field: those given, and the packed one that is assumed. -/
def optionsOf (version : Version) (es : List (Value × Value)) (type : Value) : List (String × String) :=
  literals (members (get? es "options")) ++
    if assumesPacked version es ∧ type ≠ .str "string" ∧ type ≠ .str "bytes" then [("packed", "true")]
    else []

/-- The description of a field has all there is to the field. -/
inductive SpellsField (version : Version) : Value → Field → Prop
  | object {es : List (Value × Value)} {f : Field} {tag : Value} : get? es "name" = some f.name →
    get? es "type" = some f.type → get? es "tag" = some tag → tag.toInteger = .ok f.tag →
    f.repeated = isSet (get? es "repeated") → f.options = optionsOf version es f.type →
    f.default = .none → SpellsField version (.dict es) f

/-- The description of a message has its name, fields, enumerations and messages, all in order. -/
inductive SpellsMessage (version : Version) : Value → Message → Prop
  | object {es : List (Value × Value)} {m : Message} : get? es "name" = some m.name →
    List.Forall₂ (SpellsField version) (listed (get? es "fields")) m.fields →
    List.Forall₂ SpellsEnum (listed (get? es "enums")) m.enums →
    List.Forall₂ (SpellsMessage version) (listed (get? es "messages")) m.messages →
    SpellsMessage version (.dict es) m

/-- The description of a schema has its version, package, enumerations and messages, all in order. -/
inductive SpellsSchema : Value → Schema → Prop
  | object {es : List (Value × Value)} {s : Schema} : NamesVersion (get? es "syntax") s.version →
    s.package = (get? es "package").getD .none →
    List.Forall₂ SpellsEnum (listed (get? es "enums")) s.enums →
    List.Forall₂ (SpellsMessage s.version) (listed (get? es "messages")) s.messages →
    SpellsSchema (.dict es) s

/-! ## Versions -/

theorem natAbs_eq_of_equalsInt {x : Binary64} {m n : Int} (hm : x.equalsInt m = true)
    (hn : x.equalsInt n = true) : m.natAbs = n.natAbs := by
  simp only [Binary64.equalsInt, Bool.and_eq_true, beq_iff_eq] at hm hn
  have hunits := hm.1.2.symm.trans hn.1.2
  exact Nat.mul_right_cancel (Nat.two_pow_pos _) hunits

/-- No value is equal to both numbers. -/
theorem not_equals_two {v : Value} (h : v.equals (.int 3) = true) : v.equals (.int 2) = false := by
  cases v with
  | float x =>
    rw [← Bool.not_eq_true]
    intro htwo
    have hsame := natAbs_eq_of_equalsInt h htwo
    cases hsame
  | int n =>
    have hn : n = 3 := by simpa [Value.equals] using h
    simp [Value.equals, hn]
  | bool b => cases b <;> cases h
  | none | str _ | bytes _ | list _ | dict _ => cases h

theorem equals_none_iff {v : Value} : v.equals .none = true ↔ v = .none := by
  cases v <;> simp [Value.equals]

theorem equals_str_iff {v : Value} {s : String} : v.equals (.str s) = true ↔ v = .str s := by
  cases v <;> simp [Value.equals]

theorem namesVersion_proto2_iff {v : Value} :
    NamesVersion (some v) .proto2 ↔ [.none, .int 2, .str "2", .str "proto2"].any v.equals = true := by
  simp only [List.any_cons, List.any_nil, Bool.or_false, Bool.or_eq_true, equals_none_iff, equals_str_iff]
  constructor
  · intro h
    cases h with
    | null => exact .inl rfl
    | number h => exact .inr (.inl h)
    | digit => exact .inr (.inr (.inl rfl))
    | name => exact .inr (.inr (.inr rfl))
  · rintro (rfl | h | rfl | rfl)
    · exact .null
    · exact .number h
    · exact .digit .proto2
    · exact .name .proto2

theorem namesVersion_proto3_iff {v : Value} :
    NamesVersion (some v) .proto3 ↔ [.int 3, .str "3", .str "proto3"].any v.equals = true := by
  simp only [List.any_cons, List.any_nil, Bool.or_false, Bool.or_eq_true, equals_str_iff]
  constructor
  · intro h
    cases h with
    | number h => exact .inl h
    | digit => exact .inr (.inl rfl)
    | name => exact .inr (.inr rfl)
  · rintro (h | rfl | rfl)
    · exact .number h
    · exact .digit .proto3
    · exact .name .proto3

/-- A value names one version at most. -/
theorem not_namesVersion_proto2 {v : Value} (h : NamesVersion (some v) .proto3) :
    ¬ NamesVersion (some v) .proto2 := by
  rw [namesVersion_proto3_iff] at h
  rw [namesVersion_proto2_iff]
  simp only [List.any_cons, List.any_nil, Bool.or_false, Bool.or_eq_true, equals_none_iff,
    equals_str_iff] at h ⊢
  rcases h with h | rfl | rfl
  · rintro (rfl | hold | rfl | rfl)
    · cases h
    · rw [not_equals_two h] at hold
      cases hold
    · cases h
    · cases h
  · decide
  · decide

theorem versionOf_ok_iff {entry : Option Value} {version : Version} :
    versionOf (entry.getD .none) = .ok version ↔ NamesVersion entry version := by
  cases entry with
  | none =>
    constructor
    · intro h
      cases h
      exact .missing
    · intro h
      cases h
      rfl
  | some v =>
    have hother := @not_namesVersion_proto2 v
    rw [Option.getD_some, versionOf]
    cases version <;> grind [namesVersion_proto2_iff, namesVersion_proto3_iff]

/-! ## Entries that may be left out -/

theorem get?_cons (k key : String) (v : Value) (rest : List (Value × Value)) :
    get? ((.str k, v) :: rest) key = if k = key then some v else get? rest key := by
  simp [get?, Value.find?]

theorem isJson_of_get? {es : List (Value × Value)} (h : Value.membersAreJson es = true) {key : String}
    {v : Value} (hv : get? es key = some v) : v.isJson = true := by
  obtain ⟨k, hk⟩ := Value.find?_mem hv
  exact (Value.isJson_of_member h hk).2

theorem entries_of_members {P : Value → Prop} {entry : Option Value} (h : Members P entry) :
    entries entry = .ok (members entry) := by
  cases h with
  | missing => rfl
  | @falsy v h =>
    cases v with
    | dict es =>
      cases es with
      | nil => rfl
      | cons _ _ => cases h
    | _ => simp [entries, members, h]
  | @object es _ => cases es <;> rfl

theorem Members.imp {P Q : Value → Prop} {entry : Option Value} (h : Members P entry)
    (hQ : ∀ member ∈ members entry, Q member.2) : Members Q entry := by
  cases h with
  | missing => exact .missing
  | falsy h => exact .falsy h
  | object => exact .object hQ

theorem Members.holds {P : Value → Prop} {entry : Option Value} (h : Members P entry) :
    ∀ member ∈ members entry, P member.2 := by
  cases h with
  | missing => simp [members]
  | @falsy v h =>
    cases v with
    | dict es =>
      cases es with
      | nil => simp [members]
      | cons _ _ => cases h
    | _ => simp [members]
  | object h => exact h

theorem members_of_entries {entry : Option Value} {es : List (Value × Value)} (h : entries entry = .ok es) :
    Members (fun _ => True) entry ∧ es = members entry := by
  have hmembers : Members (fun _ => True) entry := by
    cases entry with
    | none => exact .missing
    | some v =>
      cases htrue : v.truthy with
      | false => exact .falsy htrue
      | true =>
        cases v with
        | dict es => exact .object fun _ _ => trivial
        | _ => simp [entries, htrue] at h
  rw [entries_of_members hmembers] at h
  exact ⟨hmembers, (Except.ok.inj h).symm⟩

theorem mem_of_listed {entry : Option Value} {v : Value} (h : v ∈ listed entry) :
    ∃ vs, entry = some (.list vs) ∧ v ∈ vs := by
  unfold listed at h
  split at h
  · exact ⟨_, rfl, h⟩
  · cases h

theorem isJson_of_listed {es : List (Value × Value)} {key : String} {v : Value}
    (hes : Value.membersAreJson es = true) (h : v ∈ listed (get? es key)) : v.isJson = true := by
  obtain ⟨vs, hvs, hv⟩ := mem_of_listed h
  exact Value.isJson_of_mem (isJson_of_get? hes hvs) hv

theorem depth_lt_of_listed {es : List (Value × Value)} {key : String} {v : Value}
    (h : v ∈ listed (get? es key)) : v.depth < (Value.dict es).depth := by
  obtain ⟨vs, hvs, hv⟩ := mem_of_listed h
  have hlist := Value.depth_lt_of_find? hvs
  have hitem := Value.depth_le_of_mem_items hv
  rw [Value.depth] at hlist
  omega

section

variable {α : Type} {f : Value → Except Fault α} {entry : Option Value}

theorem items_of_listing {P : Value → Prop} (h : Listing P entry) : items entry = .ok (listed entry) := by
  cases h with
  | missing => rfl
  | @falsy v h =>
    cases v with
    | list vs =>
      cases vs with
      | nil => rfl
      | cons _ _ => cases h
    | _ => simp [items, listed, h]
  | @list vs _ => cases vs <;> rfl

theorem Listing.imp {P Q : Value → Prop} (h : Listing P entry) (hQ : ∀ v ∈ listed entry, Q v) :
    Listing Q entry := by
  cases h with
  | missing => exact .missing
  | falsy h => exact .falsy h
  | list => exact .list hQ

theorem Listing.holds {P : Value → Prop} (h : Listing P entry) : ∀ v ∈ listed entry, P v := by
  cases h with
  | missing => simp [listed]
  | @falsy v h =>
    cases v with
    | list vs =>
      cases vs with
      | nil => simp [listed]
      | cons _ _ => cases h
    | _ => simp [listed]
  | list h => exact h

/-- Iterating over a JSON value that is no list finds nothing, or something that is no object. -/
theorem listing_of_items {vs : List Value} (hjson : ∀ v, entry = some v → v.isJson = true)
    (h : items entry = .ok vs) (hobjects : ∀ v ∈ vs, ∃ es, v = .dict es) :
    Listing (· ∈ vs) entry := by
  cases entry with
  | none => exact .missing
  | some v =>
    cases htrue : v.truthy with
    | false => exact .falsy htrue
    | true =>
      have hitems : v.items? = some vs := by
        cases hv : v.items? with
        | none => simp [Description.items, htrue, hv] at h
        | some ws => simpa [Description.items, htrue, hv] using h
      cases v with
      | list ws =>
        cases hitems
        exact .list fun v hv => hv
      | str s =>
        cases hitems
        obtain ⟨c, hc⟩ := List.exists_mem_of_ne_nil s.toList (by simpa [Value.truthy] using htrue)
        obtain ⟨es, hes⟩ := hobjects _ (List.mem_map_of_mem hc)
        cases hes
      | dict es =>
        cases hitems
        obtain ⟨entry, hentry⟩ := List.exists_mem_of_ne_nil es (by simpa [Value.truthy] using htrue)
        obtain ⟨es', hes'⟩ := hobjects _ (List.mem_map_of_mem hentry)
        obtain ⟨key, hkey⟩ := (Value.isJson_of_member (hjson _ rfl) hentry).1
        rw [hkey] at hes'
        cases hes'
      | bytes b => cases hjson _ rfl
      | none | bool _ | int _ | float _ => cases hitems

/-- Loads all that an entry lists. -/
def load (f : Value → Except Fault α) (entry : Option Value) : Except Fault (List α) := do
  (← items entry).mapM f

/-- Where only objects can be loaded, an entry that is loaded is a list of them. -/
theorem listing_of_load {P : Value → Prop} {R : Value → α → Prop} {as : List α}
    (hobjects : ∀ v a, f v = .ok a → ∃ es, v = .dict es)
    (hjson : ∀ v, entry = some v → v.isJson = true)
    (hf : ∀ v ∈ listed entry, ∀ a, f v = .ok a → P v ∧ R v a) (h : load f entry = .ok as) :
    Listing P entry ∧ List.Forall₂ R (listed entry) as := by
  obtain ⟨vs, hvs, h⟩ := Outcome.bind_ok h
  have hall := Outcome.mapM_ok h
  have hlisting : Listing (· ∈ vs) entry := by
    apply listing_of_items hjson hvs
    intro v hv
    obtain ⟨a, -, ha⟩ := Outcome.exists_right hall hv
    exact hobjects v a ha
  rw [items_of_listing hlisting] at hvs
  cases hvs
  constructor
  · apply hlisting.imp
    intro v hv
    obtain ⟨a, -, ha⟩ := Outcome.exists_right hall hv
    exact (hf v hv a ha).1
  · apply ((List.forall₂_and_left _ _).2 ⟨hf, hall⟩).imp
    exact fun v a h => (h.1 a h.2).2

theorem exists_load {P : Value → Prop} (h : Listing P entry)
    (hf : ∀ v ∈ listed entry, P v → ∃ a, f v = .ok a) : ∃ as, load f entry = .ok as := by
  rw [load, items_of_listing h]
  exact Outcome.exists_mapM_ok fun v hv => hf v hv (h.holds v hv)

end

end Description

end ProtoScribe
