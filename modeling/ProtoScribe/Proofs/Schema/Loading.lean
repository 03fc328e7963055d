import ProtoScribe.Proofs.Schema.Grammar

/-!
# Loading a description

Loading accepts a JSON value exactly if it follows the grammar of descriptions, and yields the schema that
the description spells out (`Schema.loading_follows_the_grammar`). For each kind of declaration this is
shown both ways: what is loaded follows the grammar, and what follows the grammar is loaded. For messages
it goes by induction on the depth of the description.
-/

namespace ProtoScribe

namespace Description

/-! ## Options -/

/-- An option is found among the literals as it is found among the entries. -/
theorem lookup_literals {es : List (Value × Value)} (h : Value.membersAreJson es = true) (key : String) :
    (literals es).lookup key = (get? es key).map literalOf := by
  induction es with
  | nil => rfl
  | cons first rest ih =>
    obtain ⟨k, v⟩ := first
    cases k with
    | str s =>
      rw [Value.membersAreJson, Bool.and_eq_true] at h
      rw [get?_cons, literals, List.map_cons, List.lookup_cons, ← literals, ih h.2,
        show (Value.str s).plain = s from rfl]
      by_cases hs : s = key
      · simp [hs]
      · have hne : (key == s) = false := beq_false_of_ne fun heq => hs heq.symm
        simp [hs, hne]
    | _ => cases h

theorem withPackedDefault_ok_iff {version : Version} {es : List (Value × Value)} {type : Value}
    {options : List (String × String)} (h : Value.membersAreJson (members (get? es "options")) = true) :
    withPackedDefault version (isSet (get? es "repeated")) type (literals (members (get? es "options"))) =
        .ok options ↔
      ¬ (assumesPacked version es = true ∧ type.isKey = false) ∧
        options = optionsOf version es type := by
  have hassumes : assumesPacked version es = true ↔
      version = .proto3 ∧ isSet (get? es "repeated") = true ∧
        ((literals (members (get? es "options"))).lookup "packed").isNone = true := by
    rw [lookup_literals h]
    simp [assumesPacked, and_assoc]
  simp only [withPackedDefault, optionsOf, ← hassumes, @eq_comm _ options]
  by_cases hp : assumesPacked version es = true
  · cases hkey : type.isKey with
    | false => simp [hp]
    | true =>
      by_cases htext : type = .str "string" ∨ type = .str "bytes"
      · rcases htext with rfl | rfl <;> simp [hp]
      · simp [hp, not_or.1 htext]
  · simp [hp]

/-! ## Fields -/

theorem membersAreJson_members {es : List (Value × Value)} (h : Value.membersAreJson es = true)
    (key : String) : Value.membersAreJson (members (get? es key)) = true := by
  cases hentry : get? es key with
  | none => rfl
  | some v =>
    have hv : v.isJson = true := isJson_of_get? h hentry
    cases v with
    | dict members => exact hv
    | _ => rfl

/-- How a field is loaded once the entries that it needs are there. -/
theorem fieldOf_eq {version : Version} {es : List (Value × Value)} {name type tag : Value}
    (hname : get? es "name" = some name) (htype : get? es "type" = some type)
    (htag : get? es "tag" = some tag) :
    fieldOf version (.dict es) = (do
      let tag ← tag.toInteger
      let given ← entries (get? es "options")
      let options ← withPackedDefault version (isSet (get? es "repeated")) type (literals given)
      return { name, type, tag, repeated := isSet (get? es "repeated"), options }) := by
  simp only [fieldOf, hname, htype, htag, Outcome.ok_bind]
  rfl

theorem exists_dict_of_fieldOf {version : Version} {v : Value} {f : Field} (h : fieldOf version v = .ok f) :
    ∃ es, v = .dict es := by
  cases v with
  | dict es => exact ⟨es, rfl⟩
  | _ => cases h

section

variable {version : Version} {v : Value} (hv : v.isJson = true)

include hv

theorem isField_of_fieldOf {f : Field} (h : fieldOf version v = .ok f) :
    IsField version v ∧ SpellsField version v f := by
  obtain ⟨es, rfl⟩ := exists_dict_of_fieldOf h
  obtain ⟨name, hname⟩ : ∃ name, get? es "name" = some name := by
    cases hname : get? es "name" with
    | none => simp only [fieldOf, hname] at h; cases h
    | some name => exact ⟨name, rfl⟩
  obtain ⟨type, htype⟩ : ∃ type, get? es "type" = some type := by
    cases htype : get? es "type" with
    | none => simp only [fieldOf, hname, htype] at h; cases h
    | some type => exact ⟨type, rfl⟩
  obtain ⟨tag, htag⟩ : ∃ tag, get? es "tag" = some tag := by
    cases htag : get? es "tag" with
    | none => simp only [fieldOf, hname, htype, htag] at h; cases h
    | some tag => exact ⟨tag, rfl⟩
  rw [fieldOf_eq hname htype htag] at h
  obtain ⟨n, hn, h⟩ := Outcome.bind_ok h
  obtain ⟨given, hgiven, h⟩ := Outcome.bind_ok h
  obtain ⟨options, hoptions, h⟩ := Outcome.bind_ok h
  obtain ⟨hmembers, rfl⟩ := members_of_entries hgiven
  obtain ⟨hkey, rfl⟩ := (withPackedDefault_ok_iff (membersAreJson_members hv _)).1 hoptions
  cases h
  exact ⟨.object (by simp [hname]) htype htag hn hmembers hkey, .object hname htype htag hn rfl rfl rfl⟩

theorem exists_fieldOf (h : IsField version v) : ∃ f, fieldOf version v = .ok f := by
  cases h with
  | @object es type tag n hname htype htag hn hmembers hkey =>
    obtain ⟨name, hname⟩ := Option.isSome_iff_exists.1 hname
    have hoptions := (withPackedDefault_ok_iff (membersAreJson_members hv "options")).2 ⟨hkey, rfl⟩
    rw [fieldOf_eq hname htype htag, hn, entries_of_members hmembers, Outcome.ok_bind, Outcome.ok_bind,
      hoptions]
    exact ⟨_, rfl⟩

end

/-! ## Enumerations -/

theorem symbolOf_ok_iff {name v : Value} {symbol : String} {result : String × Int} :
    symbolOf name symbol v = .ok result ↔ result.1 = symbol ∧ IsNumber v result.2 := by
  constructor
  · intro h
    cases v with
    | int n =>
      cases h
      exact ⟨rfl, .direct n⟩
    | dict es =>
      cases hvalue : get? es "value" with
      | none => simp [symbolOf, hvalue] at h
      | some number =>
        cases number with
        | int n =>
          have hresult : (symbol, n) = result := by simpa [symbolOf, hvalue] using h
          cases hresult
          exact ⟨rfl, .wrapped hvalue⟩
        | _ => simp [symbolOf, hvalue] at h
    | _ => cases h
  · obtain ⟨s, n⟩ := result
    rintro ⟨rfl, hnumber⟩
    cases hnumber with
    | direct => rfl
    | wrapped hvalue => simp [symbolOf, hvalue]

/-- How an enumeration is loaded once it has a name. -/
theorem enumOf_eq {es : List (Value × Value)} {name : Value} (hname : get? es "name" = some name) :
    enumOf (.dict es) = (do
      let values ← (← entries (get? es "values")).mapM fun entry => symbolOf name entry.1.plain entry.2
      return { name, values }) := by
  simp only [enumOf, hasName, hname]
  rfl

theorem exists_dict_of_enumOf {v : Value} {e : Enumeration} (h : enumOf v = .ok e) :
    ∃ es, v = .dict es := by
  obtain ⟨named, -, h⟩ := Outcome.bind_ok h
  cases v with
  | dict es => exact ⟨es, rfl⟩
  | _ => cases named <;> cases h

theorem isEnum_of_enumOf {v : Value} {e : Enumeration} (hv : v.isJson = true) (h : enumOf v = .ok e) :
    IsEnum v ∧ SpellsEnum v e := by
  obtain ⟨es, rfl⟩ := exists_dict_of_enumOf h
  obtain ⟨name, hname⟩ : ∃ name, get? es "name" = some name := by
    cases hname : get? es "name" with
    | none => simp only [enumOf, hasName, hname] at h; cases h
    | some name => exact ⟨name, rfl⟩
  rw [enumOf_eq hname] at h
  obtain ⟨given, hgiven, h⟩ := Outcome.bind_ok h
  obtain ⟨values, hvalues, h⟩ := Outcome.bind_ok h
  cases h
  obtain ⟨hmembers, rfl⟩ := members_of_entries hgiven
  have hall := Outcome.mapM_ok hvalues
  have hkeys : ∀ member ∈ members (get? es "values"), ∃ key, member.1 = .str key :=
    fun member hmember => (Value.isJson_of_member (membersAreJson_members hv "values") hmember).1
  refine ⟨.object (by simp [hname]) (hmembers.imp fun member hmember => ?_), .object hname ?_⟩
  · obtain ⟨symbol, -, hsymbol⟩ := Outcome.exists_right hall hmember
    exact ⟨_, (symbolOf_ok_iff.1 hsymbol).2⟩
  · apply ((List.forall₂_and_left _ _).2 ⟨hkeys, hall⟩).imp
    rintro member symbol ⟨⟨key, hkey⟩, hsymbol⟩
    obtain ⟨hsame, hnumber⟩ := symbolOf_ok_iff.1 hsymbol
    rw [hkey] at hsame ⊢
    exact ⟨by rw [hsame]; rfl, hnumber⟩

theorem exists_enumOf {v : Value} (h : IsEnum v) : ∃ e, enumOf v = .ok e := by
  cases h with
  | @object es hname hmembers =>
    obtain ⟨name, hname⟩ := Option.isSome_iff_exists.1 hname
    have hall : ∀ member ∈ members (get? es "values"),
        ∃ symbol, symbolOf name member.1.plain member.2 = .ok symbol := by
      intro member hmember
      obtain ⟨n, hn⟩ := hmembers.holds member hmember
      exact ⟨(_, n), symbolOf_ok_iff.2 ⟨rfl, hn⟩⟩
    obtain ⟨values, hvalues⟩ := Outcome.exists_mapM_ok hall
    rw [enumOf_eq hname, entries_of_members hmembers, Outcome.ok_bind, hvalues]
    exact ⟨_, rfl⟩

/-! ## Messages -/

section

variable (version : Version)

theorem messagesOfItems_eq (vs : List Value) : messagesOfItems version vs = vs.mapM (messageOf version) := by
  induction vs with
  | nil => rfl
  | cons v rest ih => rw [messagesOfItems, List.mapM_cons, ih]

theorem messagesOfKeys_eq (es : List (Value × Value)) :
    messagesOfKeys version es = (es.map Prod.fst).mapM (messageOf version) := by
  induction es with
  | nil => rfl
  | cons entry rest ih => rw [messagesOfKeys, List.map_cons, List.mapM_cons, ih]

/-- A single character is too short for a name. -/
theorem messageOf_char (c : Char) :
    messageOf version (.str (String.singleton c)) = .error .unnamedMessage := by
  have hname : hasName (.str (String.singleton c)) = .ok false := by
    simp [hasName, containsText, List.isPrefixOf]
  rw [messageOf, hname]
  · rfl
  · simp

/-- Messages are loaded as fields and enumerations are. -/
theorem messagesOf_eq {v : Value} (hv : v.isJson = true) :
    messagesOf version v = load (messageOf version) (some v) := by
  cases v with
  | list vs =>
    rw [messagesOf, messagesOfItems_eq]
    cases vs <;> rfl
  | dict es =>
    rw [messagesOf, messagesOfKeys_eq]
    cases es <;> rfl
  | str s =>
    cases hs : s.toList with
    | nil =>
      have hempty : s.isEmpty = true := by simpa [String.isEmpty_iff, ← String.toList_eq_nil_iff] using hs
      simp [messagesOf, load, items, Value.truthy, hempty]
      rfl
    | cons c cs =>
      have hempty : s.isEmpty = false := by
        rw [← Bool.not_eq_true, String.isEmpty_iff, ← String.toList_eq_nil_iff, hs]
        simp
      simp only [messagesOf, load, items, Value.truthy, hempty, Value.items?, hs, List.map_cons]
      change _ = List.mapM (messageOf version) (_ :: _)
      rw [List.mapM_cons, messageOf_char]
      rfl
  | bytes b => cases hv
  | none => rfl
  | bool b => cases b <;> rfl
  | int n =>
    by_cases hn : n = 0 <;> simp [messagesOf, load, items, Value.truthy, Value.items?, hn] <;> rfl
  | float x =>
    cases hx : (Value.float x).truthy <;> simp [messagesOf, load, items, hx, Value.items?] <;> rfl

theorem nestedOf_eq {es : List (Value × Value)} (h : Value.membersAreJson es = true) :
    nestedOf version es = load (messageOf version) (get? es "messages") := by
  induction es with
  | nil => rfl
  | cons first rest ih =>
    obtain ⟨k, v⟩ := first
    cases k with
    | str key =>
      rw [Value.membersAreJson, Bool.and_eq_true] at h
      rw [nestedOf, get?_cons]
      by_cases hkey : key = "messages"
      · simp [hkey, messagesOf_eq version h.1]
      · simp [hkey, ih h.2]
    | _ => cases h

variable {version}

/-- How a message is loaded once it has a name. -/
theorem messageOf_eq {es : List (Value × Value)} {name : Value} (h : Value.membersAreJson es = true)
    (hname : get? es "name" = some name) :
    messageOf version (.dict es) = (do
      let fields ← load (fieldOf version) (get? es "fields")
      let enums ← load enumOf (get? es "enums")
      let messages ← load (messageOf version) (get? es "messages")
      return { name, fields, enums, messages }) := by
  simp only [messageOf, hname, nestedOf_eq version h, load, bind_assoc]

theorem exists_dict_of_messageOf {v : Value} {m : Message} (h : messageOf version v = .ok m) :
    ∃ es, v = .dict es := by
  cases v with
  | dict es => exact ⟨es, rfl⟩
  | _ =>
    rw [messageOf] at h
    · obtain ⟨named, -, h⟩ := Outcome.bind_ok h
      cases named <;> cases h
    · simp

theorem isMessage_of_messageOf {v : Value} {m : Message} (hv : v.isJson = true)
    (h : messageOf version v = .ok m) : IsMessage version v ∧ SpellsMessage version v m := by
  induction hd : v.depth using Nat.strongRecOn generalizing v m with
  | ind d ih =>
    subst hd
    obtain ⟨es, rfl⟩ := exists_dict_of_messageOf h
    obtain ⟨name, hname⟩ : ∃ name, get? es "name" = some name := by
      cases hname : get? es "name" with
      | none => simp only [messageOf, hname] at h; cases h
      | some name => exact ⟨name, rfl⟩
    rw [messageOf_eq hv hname] at h
    obtain ⟨fields, hfields, h⟩ := Outcome.bind_ok h
    obtain ⟨enums, henums, h⟩ := Outcome.bind_ok h
    obtain ⟨messages, hmessages, h⟩ := Outcome.bind_ok h
    cases h
    have hjson : ∀ key v, get? es key = some v → v.isJson = true := fun key v => isJson_of_get? hv
    obtain ⟨hfields, hspellsFields⟩ := listing_of_load (fun v f => exists_dict_of_fieldOf) (hjson _)
      (fun v hmem f hf => isField_of_fieldOf (isJson_of_listed hv hmem) hf) hfields
    obtain ⟨henums, hspellsEnums⟩ := listing_of_load (fun v e => exists_dict_of_enumOf) (hjson _)
      (fun v hmem e he => isEnum_of_enumOf (isJson_of_listed hv hmem) he) henums
    obtain ⟨hmessages, hspellsMessages⟩ := listing_of_load (fun v m => exists_dict_of_messageOf) (hjson _)
      (fun v hmem m hm => ih _ (depth_lt_of_listed hmem) (isJson_of_listed hv hmem) hm rfl) hmessages
    exact ⟨.object (by simp [hname]) hfields henums hmessages,
      .object hname hspellsFields hspellsEnums hspellsMessages⟩

theorem exists_messageOf {v : Value} (hv : v.isJson = true) (h : IsMessage version v) :
    ∃ m, messageOf version v = .ok m := by
  induction hd : v.depth using Nat.strongRecOn generalizing v with
  | ind d ih =>
    subst hd
    cases h with
    | @object es hname hfields henums hmessages =>
      obtain ⟨name, hname⟩ := Option.isSome_iff_exists.1 hname
      obtain ⟨fields, hfields⟩ := exists_load hfields fun v hmem =>
        exists_fieldOf (isJson_of_listed hv hmem)
      obtain ⟨enums, henums⟩ := exists_load henums fun v _ => exists_enumOf
      obtain ⟨messages, hmessages⟩ := exists_load hmessages fun v hmem hmessage =>
        ih _ (depth_lt_of_listed hmem) (isJson_of_listed hv hmem) hmessage rfl
      rw [messageOf_eq hv hname, hfields, henums, hmessages]
      exact ⟨_, rfl⟩

end

end Description

/-! ## Schemas -/

namespace Schema

open Description

theorem ofValue_eq {es : List (Value × Value)} (h : Value.membersAreJson es = true) :
    Schema.ofValue (.dict es) = (do
      let version ← versionOf ((get? es "syntax").getD .none)
      let enums ← load enumOf (get? es "enums")
      let messages ← load (messageOf version) (get? es "messages")
      return { version, package := (get? es "package").getD .none, enums, messages }) := by
  simp only [Schema.ofValue, nestedOf_eq _ h, load, bind_assoc]

theorem isSchema_of_ofValue {v : Value} {s : Schema} (hv : v.isJson = true) (h : Schema.ofValue v = .ok s) :
    IsSchema v ∧ SpellsSchema v s := by
  cases v with
  | dict es =>
    rw [ofValue_eq hv] at h
    obtain ⟨version, hversion, h⟩ := Outcome.bind_ok h
    obtain ⟨enums, henums, h⟩ := Outcome.bind_ok h
    obtain ⟨messages, hmessages, h⟩ := Outcome.bind_ok h
    cases h
    rw [versionOf_ok_iff] at hversion
    have hjson : ∀ key v, get? es key = some v → v.isJson = true := fun key v => isJson_of_get? hv
    obtain ⟨henums, hspellsEnums⟩ := listing_of_load (fun v e => exists_dict_of_enumOf) (hjson _)
      (fun v hmem e he => isEnum_of_enumOf (isJson_of_listed hv hmem) he) henums
    obtain ⟨hmessages, hspellsMessages⟩ := listing_of_load (fun v m => exists_dict_of_messageOf) (hjson _)
      (fun v hmem m hm => isMessage_of_messageOf (isJson_of_listed hv hmem) hm) hmessages
    exact ⟨.object hversion henums hmessages, .object hversion rfl hspellsEnums hspellsMessages⟩
  | _ => cases h

theorem exists_ofValue {v : Value} (hv : v.isJson = true) (h : IsSchema v) :
    ∃ s, Schema.ofValue v = .ok s := by
  cases h with
  | @object es version hversion henums hmessages =>
    obtain ⟨enums, henums⟩ := exists_load henums fun v _ => exists_enumOf
    obtain ⟨messages, hmessages⟩ := exists_load hmessages fun v hmem =>
      exists_messageOf (isJson_of_listed hv hmem)
    rw [ofValue_eq hv, versionOf_ok_iff.2 hversion, Outcome.ok_bind, henums, hmessages]
    exact ⟨_, rfl⟩

/-- Loading accepts a JSON value exactly if it follows the grammar. What it loads is what the description
spells out, and a value that does not follow the grammar is refused. -/
theorem loading_follows_the_grammar {v : Value} (hv : v.isJson = true) :
    ((∃ s, Schema.ofValue v = .ok s) ↔ IsSchema v) ∧
    (∀ s, Schema.ofValue v = .ok s → SpellsSchema v s) ∧
    (¬ IsSchema v → ∃ e, Schema.ofValue v = .error e) := by
  have haccepts : (∃ s, Schema.ofValue v = .ok s) ↔ IsSchema v :=
    ⟨fun ⟨s, hs⟩ => (isSchema_of_ofValue hv hs).1, exists_ofValue hv⟩
  refine ⟨haccepts, fun s hs => (isSchema_of_ofValue hv hs).2, ?_⟩
  intro hno
  cases h : Schema.ofValue v with
  | error e => exact ⟨e, rfl⟩
  | ok s => exact absurd (haccepts.1 ⟨s, h⟩) hno

/-- The description of a line with its stops: a number may be wrapped, a tag may be text, and the field is
packed without asking. -/
def lineDescription : Value :=
  let kind := .dict [(.str "name", .str "Kind"),
    (.str "values", .dict [(.str "BUS", .int 0), (.str "TRAM", .dict [(.str "value", .int 5)])])]
  let stops := .dict [(.str "name", .str "stops"), (.str "type", .str "Kind"), (.str "tag", .str " 7 "),
    (.str "repeated", .int 1)]
  .dict [(.str "syntax", .str "3"), (.str "enums", .bool false),
    (.str "messages", .list [.dict [(.str "name", .str "Line"), (.str "enums", .list [kind]),
      (.str "fields", .list [stops]), (.str "messages", .list [.dict [(.str "name", .str "Stop")]])]])]

def lineSchema : Schema :=
  let stops : Field :=
    { name := .str "stops", type := .str "Kind", tag := 7, repeated := true, options := [("packed", "true")] }
  { version := .proto3, package := .none, enums := [],
    messages := [{ name := .str "Line", fields := [stops],
                   enums := [{ name := .str "Kind", values := [("BUS", 0), ("TRAM", 5)] }],
                   messages := [{ name := .str "Stop", fields := [], enums := [], messages := [] }] }] }

/-- The line is loaded as it is described, and text in the place of an enumeration is refused even if it
has a name in it. -/
theorem line_follows_the_grammar :
    (IsSchema lineDescription ∧ SpellsSchema lineDescription lineSchema) ∧
    ¬ IsSchema (.dict [(.str "enums", .list [.str "name"])]) := by
  have hline := loading_follows_the_grammar (v := lineDescription) rfl
  have hload : Schema.ofValue lineDescription = .ok lineSchema := rfl
  refine ⟨⟨hline.1.1 ⟨_, hload⟩, hline.2.1 _ hload⟩, fun hno => ?_⟩
  obtain ⟨s, hs⟩ := (loading_follows_the_grammar rfl).1.2 hno
  cases hs

end Schema

end ProtoScribe
