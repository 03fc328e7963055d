import ProtoScribe.Descriptor.Description
import ProtoScribe.Proofs.Descriptor.Conversion
import ProtoScribe.Proofs.Scope.Options
import ProtoScribe.Schema.Description

/-!
# Loading descriptions of described files

A file can be loaded from its descriptor and from its description. Both ways succeed if the file can be
described at all, with schemas that are the same but for packed options: the description assumes that
every repeated field is packed unless its type is that of text or bytes, where the descriptor looks at
the type (`FileDescriptor.exists_schemas`).
-/

namespace ProtoScribe

/-! ## Packed options -/

/-- The field with the packed option that a description assumes in a version. -/
def Field.assumePacked (version : Version) (f : Field) : Field :=
  if version = .proto3 ∧ f.repeated = true ∧ f.option? "packed" = none ∧ f.type ≠ .str "string" ∧
      f.type ≠ .str "bytes" then
    { f with options := f.options ++ [("packed", "true")] }
  else f

theorem Field.altersOptions_assumePacked (version : Version) : AltersOptions (assumePacked version) where
  options f := by
    unfold assumePacked
    split
    · exact ⟨_, rfl⟩
    · exact ⟨f.options, rfl⟩
  literal f := by
    unfold assumePacked
    split
    · show (f.options ++ [("packed", "true")]).lookup "default" = f.options.lookup "default"
      rw [List.lookup_append]
      exact Option.or_none
    · rfl
  default f v := by
    unfold assumePacked
    show (if version = .proto3 ∧ f.repeated = true ∧ f.option? "packed" = none ∧ f.type ≠ .str "string" ∧
      f.type ≠ .str "bytes" then _ else _) = _
    split <;> rfl

/-- A packed option that is there stays as it is. -/
theorem Field.assumePacked_of_packed {version : Version} {f : Field} {literal : String}
    (h : f.option? "packed" = some literal) : f.assumePacked version = f := by
  apply if_neg
  rintro ⟨-, -, hnone, -⟩
  rw [h] at hnone
  cases hnone

/-! ## Fields -/

namespace Description

theorem withPackedDefault_of_packed {options : List (String × String)} {literal : String}
    (h : options.lookup "packed" = some literal) (version : Version) (repeated : Bool) (type : Value) :
    withPackedDefault version repeated type options = .ok options := by
  apply if_neg
  rintro ⟨-, -, hnone⟩
  rw [h] at hnone
  cases hnone

theorem withPackedDefault_of_none {options : List (String × String)} (h : options.lookup "packed" = none)
    (version : Version) (repeated : Bool) (type : String) :
    withPackedDefault version repeated (.str type) options =
      .ok (if version = .proto3 ∧ repeated = true ∧ type ≠ "string" ∧ type ≠ "bytes" then
        options ++ [("packed", "true")] else options) := by
  have hkey : (Value.str type).isKey = true := rfl
  unfold withPackedDefault
  rw [h, hkey]
  by_cases hversion : version = .proto3 ∧ repeated = true
  · by_cases htype : type = "string" ∨ type = "bytes"
    · grind
    · grind
  · grind

theorem entries_dict (es : List (Value × Value)) : entries (some (.dict es)) = .ok es := by
  cases es <;> rfl

theorem items_list (vs : List Value) : items (some (.list vs)) = .ok vs := by
  cases vs <;> rfl

/-- A field by the entries that are found. -/
theorem fieldOf_dict {version : Version} {es options : List (Value × Value)} {name type : Value} {tag : Int}
    {repeated : Bool} (hname : get? es "name" = some name) (htype : get? es "type" = some type)
    (htag : get? es "tag" = some (.int tag)) (hrepeated : get? es "repeated" = some (.bool repeated))
    (hoptions : get? es "options" = some (.dict options)) :
    fieldOf version (.dict es) =
      (withPackedDefault version repeated type
        (options.map fun entry => (entry.1.plain, literalOf entry.2))).map
        fun options => { name, type, tag, repeated, options } := by
  rw [fieldOf]
  simp only [hname, htype, htag, hrepeated, hoptions, entries_dict, Value.toInteger, Option.getD_some,
    Value.truthy, bind, Except.bind]
  cases withPackedDefault version repeated type (options.map fun entry => (entry.1.plain, literalOf entry.2)) <;>
    rfl

/-- An enumeration by the entries that are found. -/
theorem enumOf_dict {es values : List (Value × Value)} {name : Value} (hname : get? es "name" = some name)
    (hvalues : get? es "values" = some (.dict values)) :
    enumOf (.dict es) =
      (values.mapM fun entry => symbolOf name entry.1.plain entry.2).map fun values => { name, values } := by
  have hnamed : hasName (.dict es) = .ok true := by rw [hasName, hname]; rfl
  unfold enumOf
  simp only [hnamed, hname, hvalues, entries_dict, Option.getD_some, bind, Except.bind]
  cases values.mapM fun entry => symbolOf name entry.1.plain entry.2 <;> rfl

/-- A message by the entries that are found. -/
theorem messageOf_dict {version : Version} {es : List (Value × Value)} {name : Value}
    {fields enums : List Value} (hname : get? es "name" = some name)
    (hfields : get? es "fields" = some (.list fields)) (henums : get? es "enums" = some (.list enums)) :
    messageOf version (.dict es) = do
      let fields ← fields.mapM (fieldOf version)
      let enums ← enums.mapM enumOf
      let messages ← nestedOf version es
      return { name, fields, enums, messages } := by
  rw [messageOf]
  simp only [hname, hfields, henums, items_list]
  rfl

/-- The messages of a record are those under the last of its four keys. -/
theorem nestedOf_record {version : Version} {a b c : String} {u v w : Value} {vs : List Value}
    (ha : a ≠ "messages") (hb : b ≠ "messages") (hc : c ≠ "messages") :
    nestedOf version ([(a, u), (b, v), (c, w), ("messages", .list vs)].map fun entry =>
      (Value.str entry.1, entry.2)) = messagesOfItems version vs := by
  simp [nestedOf, messagesOf, ha, hb, hc]

/-- A schema by the entries that are found. -/
theorem ofValue_dict {es : List (Value × Value)} {version package : Value} {enums : List Value}
    (hversion : get? es "syntax" = some version) (hpackage : get? es "package" = some package)
    (henums : get? es "enums" = some (.list enums)) :
    Schema.ofValue (.dict es) = do
      let version ← versionOf version
      let enums ← enums.mapM enumOf
      let messages ← nestedOf version es
      return { version, package, enums, messages } := by
  rw [Schema.ofValue]
  simp only [hversion, hpackage, henums, items_list, Option.getD_some]
  rfl

end Description

namespace FieldDescriptor

variable {d : FieldDescriptor} {package : String} {version : Version}

theorem describeType_of_scalar {t : Scalar} (h : scalarOfCode? d.type = some t) :
    d.describeType package = t.keyword := by
  rw [describeType, h]

theorem describeType_of_reference (package : String) (hplain : d.isPlain = true)
    (h : scalarOfCode? d.type = none) : d.isReference = true ∧ ∃ t, d.describeType package = "." ++ t := by
  simp only [isPlain, h, Option.isSome_none, Bool.false_or, Bool.and_eq_true, Bool.or_eq_true,
    decide_eq_true_eq] at hplain
  obtain ⟨hcode, hdot⟩ := hplain
  refine ⟨decide_eq_true hcode, ?_⟩
  rw [describeType, h]
  apply exists_relativeTo_eq_dot
  obtain ⟨rest, hrest⟩ := List.isPrefixOf_iff_prefix.1 hdot
  refine ⟨String.ofList rest, String.toList_injective ?_⟩
  simp [← hrest]

theorem typeOf_of_isPlain (h : d.isPlain = true) : d.typeOf package = .ok (d.describeType package) := by
  cases hscalar : scalarOfCode? d.type with
  | some t => rw [typeOf, describeType, hscalar]
  | none =>
    have hcode := of_decide_eq_true (describeType_of_reference package h hscalar).1
    rw [typeOf, describeType, hscalar]
    exact if_pos hcode

/-- Where a descriptor packs without being asked, so does a description. -/
theorem describeType_ne (h : d.isPlain = true)
    (hpacks : d.type = enumCode ∨
      ((Scalar.ofKeyword? (d.describeType package)).any fun t => t.coding.packable) = true) :
    d.describeType package ≠ "string" ∧ d.describeType package ≠ "bytes" := by
  rcases hpacks with hcode | hpackable
  · obtain ⟨-, t, ht⟩ := describeType_of_reference package h (by rw [hcode]; rfl)
    rw [ht]
    constructor <;>
    · intro heq
      have hchars := congrArg String.toList heq
      simp at hchars
  · constructor <;>
    · intro heq
      rw [heq] at hpackable
      exact absurd hpackable (by decide)

/-- The options that are set, as literals. -/
def setOptions (d : FieldDescriptor) : List (String × String) :=
  (d.defaultValue.map fun literal => ("default", literal)).toList ++
    (d.packed.map fun b => ("packed", if b then "true" else "false")).toList

theorem fieldOf_describe : Description.fieldOf version (d.describe package) =
    (Description.withPackedDefault version d.repeated (.str (d.describeType package)) d.setOptions).map
      fun options => {
        name := .str d.name
        type := .str (d.describeType package)
        tag := d.number
        repeated := d.repeated
        options } := by
  have hgiven : (d.describeOptions.map fun entry => (Value.str entry.1, entry.2)).map
      (fun entry => (entry.1.plain, Description.literalOf entry.2)) = d.setOptions := by
    unfold describeOptions setOptions
    cases d.defaultValue <;> cases d.packed <;> rfl
  rw [← hgiven]
  exact Description.fieldOf_dict rfl rfl rfl rfl rfl

theorem toField_of_isPlain (h : d.isPlain = true) : d.toField package version = .ok {
    name := .str d.name
    type := .str (d.describeType package)
    tag := d.number
    repeated := d.repeated
    options := (d.defaultValue.map fun literal => ("default", literal)).toList ++
      d.packedOption version (d.describeType package) } := by
  rw [toField, typeOf_of_isPlain h]
  cases d.defaultValue <;> rfl

theorem packedOption_of_none (h : d.packed = none) (type : String) :
    d.packedOption version type =
      if version = .proto3 ∧ d.repeated = true ∧ (d.type = enumCode ∨
        ((Scalar.ofKeyword? type).any fun t => t.coding.packable) = true) then [("packed", "true")]
      else [] := by
  rw [packedOption, h]
  cases Scalar.ofKeyword? type <;> rfl

/-- A field is loaded from its description as it is from its descriptor, but for the packed option. -/
theorem exists_field (package : String) (version : Version) (h : d.isPlain = true) :
    ∃ f, d.toField package version = .ok f ∧
      Description.fieldOf version (d.describe package) = .ok (f.assumePacked version) := by
  refine ⟨_, toField_of_isPlain h, ?_⟩
  rw [fieldOf_describe]
  generalize hliterals : (d.defaultValue.map fun literal => ("default", literal)).toList = literals
  have hnone : literals.lookup "packed" = none := by
    rw [← hliterals]
    cases d.defaultValue <;> rfl
  have hset : d.setOptions =
      literals ++ (d.packed.map fun b => ("packed", if b then "true" else "false")).toList := by
    rw [setOptions, hliterals]
  cases hpacked : d.packed with
  | some b =>
    -- an option that is set is the same on both sides, and nothing is assumed
    have hoption : d.packedOption version (d.describeType package) =
        [("packed", if b then "true" else "false")] := by
      rw [packedOption, hpacked]
    rw [hpacked] at hset
    have hlookup : d.setOptions.lookup "packed" = some (if b then "true" else "false") := by
      rw [hset, List.lookup_append, hnone]
      rfl
    rw [Description.withPackedDefault_of_packed hlookup, hoption]
    rw [hset] at hlookup ⊢
    rw [Field.assumePacked_of_packed]
    · rfl
    · exact hlookup
  | none =>
    rw [hpacked, Option.map_none, Option.toList_none, List.append_nil] at hset
    rw [hset, Description.withPackedDefault_of_none hnone, packedOption_of_none hpacked]
    by_cases hpacks : version = .proto3 ∧ d.repeated = true ∧ (d.type = enumCode ∨
        ((Scalar.ofKeyword? (d.describeType package)).any fun t => t.coding.packable) = true)
    · -- the descriptor packs by itself, so the description has nothing to add to it
      have hne := describeType_ne h hpacks.2.2
      rw [if_pos hpacks, if_pos ⟨hpacks.1, hpacks.2.1, hne⟩, Field.assumePacked_of_packed]
      · rfl
      · show (literals ++ [("packed", "true")]).lookup "packed" = some "true"
        rw [List.lookup_append, hnone]
        rfl
    · -- what the description adds here is what is assumed
      rw [if_neg hpacks, List.append_nil]
      by_cases hassumes : version = .proto3 ∧ d.repeated = true ∧ d.describeType package ≠ "string" ∧
          d.describeType package ≠ "bytes"
      · obtain ⟨hversion, hrepeated, hstring, hbytes⟩ := hassumes
        rw [if_pos ⟨hversion, hrepeated, hstring, hbytes⟩, Field.assumePacked, if_pos]
        · rfl
        · exact ⟨hversion, hrepeated, hnone, fun heq => hstring (Value.str.inj heq),
            fun heq => hbytes (Value.str.inj heq)⟩
      · rw [if_neg hassumes, Field.assumePacked, if_neg]
        · rfl
        · rintro ⟨hversion, hrepeated, -, hstring, hbytes⟩
          exact hassumes ⟨hversion, hrepeated, fun heq => hstring (congrArg Value.str heq),
            fun heq => hbytes (congrArg Value.str heq)⟩

theorem exists_fields (package : String) (version : Version) {ds : List FieldDescriptor}
    (h : ds.all (·.isPlain) = true) : ∃ fs, ds.mapM (·.toField package version) = .ok fs ∧
      (ds.map (·.describe package)).mapM (Description.fieldOf version) =
        .ok (fs.map (Field.assumePacked version)) := by
  induction ds with
  | nil => exact ⟨[], rfl, rfl⟩
  | cons d rest ih =>
    rw [List.all_cons, Bool.and_eq_true] at h
    obtain ⟨f, hf, hdescribed⟩ := exists_field package version h.1
    obtain ⟨fs, hfs, hrest⟩ := ih h.2
    refine ⟨f :: fs, ?_, ?_⟩
    · rw [List.mapM_cons, hf, hfs]
      rfl
    · rw [List.map_cons, List.mapM_cons, hdescribed, hrest]
      rfl

end FieldDescriptor

/-! ## Enumerations and messages -/

def symbolEntry (symbol : String × Int) : Value × Value := (.str symbol.1, .int symbol.2)

theorem put_symbolEntry (symbols : List (String × Int)) (symbol : String) (n : Int) :
    Value.put (symbols.map symbolEntry) (.str symbol) (.int n) = (putNamed symbols symbol n).map symbolEntry := by
  induction symbols with
  | nil => rfl
  | cons first rest ih =>
    have hkey : (Value.str first.1).sameKey (.str symbol) = decide (first.1 = symbol) := by
      simp [Value.sameKey, Value.equals]
    rw [List.map_cons, symbolEntry, Value.put, hkey, putNamed, ih]
    simp only [decide_eq_true_eq]
    split <;> rfl

theorem foldl_put_symbolEntry (symbols acc : List (String × Int)) :
    (symbols.map symbolEntry).foldl (fun acc entry => Value.put acc entry.1 entry.2) (acc.map symbolEntry) =
      (symbols.foldl (fun acc symbol => putNamed acc symbol.1 symbol.2) acc).map symbolEntry := by
  induction symbols generalizing acc with
  | nil => rfl
  | cons first rest ih =>
    rw [List.map_cons, List.foldl_cons, List.foldl_cons, ← ih, ← put_symbolEntry]
    rfl

/-- An enumeration is loaded from its description as it is from its descriptor. -/
theorem EnumDescriptor.enumOf_describe (e : EnumDescriptor) :
    Description.enumOf e.describe = .ok e.toEnum := by
  have hvalues : Value.ofEntries (e.values.map symbolEntry) = .dict (e.toEnum.values.map symbolEntry) :=
    congrArg Value.dict (foldl_put_symbolEntry e.values [])
  have hsymbols : ∀ symbols : List (String × Int), (symbols.map symbolEntry).mapM
      (fun entry => Description.symbolOf (.str e.name) entry.1.plain entry.2) = .ok symbols := by
    intro symbols
    induction symbols with
    | nil => rfl
    | cons first rest ih =>
      rw [List.map_cons, List.mapM_cons, ih]
      rfl
  show Description.enumOf (.record [("name", .str e.name),
    ("values", .ofEntries (e.values.map symbolEntry))]) = _
  rw [hvalues, Value.record, Description.enumOf_dict rfl rfl, hsymbols]
  rfl

theorem EnumDescriptor.mapM_enumOf (es : List EnumDescriptor) :
    (es.map (·.describe)).mapM Description.enumOf = .ok (es.map (·.toEnum)) := by
  induction es with
  | nil => rfl
  | cons e rest ih =>
    rw [List.map_cons, List.mapM_cons, enumOf_describe, ih]
    rfl

mutual

/-- A message is loaded from its description as it is from its descriptor, but for packed options. -/
theorem MessageDescriptor.exists_message (package : String) (version : Version) :
    ∀ d : MessageDescriptor, d.isPlain = true → ∃ m, d.toMessage package version = .ok m ∧
      Description.messageOf version (d.describe package) = .ok (m.alter (Field.assumePacked version))
  | ⟨name, fields, enums, messages⟩, h => by
    rw [isPlain, Bool.and_eq_true] at h
    obtain ⟨fields', hfields, hdescribed⟩ := FieldDescriptor.exists_fields package version h.1
    obtain ⟨messages', hmessages, hnested⟩ := exists_messages package version messages h.2
    refine ⟨_, by rw [toMessage, hfields, hmessages]; rfl, ?_⟩
    rw [describe, Value.record, Description.messageOf_dict rfl rfl rfl, hdescribed,
      EnumDescriptor.mapM_enumOf, Description.nestedOf_record (by decide) (by decide) (by decide), hnested]
    rfl

theorem MessageDescriptor.exists_messages (package : String) (version : Version) :
    ∀ ds : List MessageDescriptor, arePlain ds = true → ∃ ms, toMessages package version ds = .ok ms ∧
      Description.messagesOfItems version (describeAll package ds) =
        .ok (Message.alterAll (Field.assumePacked version) ms)
  | [], _ => ⟨[], rfl, rfl⟩
  | d :: rest, h => by
    rw [arePlain, Bool.and_eq_true] at h
    obtain ⟨m, hm, hdescribed⟩ := exists_message package version d h.1
    obtain ⟨ms, hms, hrest⟩ := exists_messages package version rest h.2
    refine ⟨m :: ms, ?_, ?_⟩
    · rw [toMessages, hm, hms]
      rfl
    · rw [describeAll, Description.messagesOfItems, hdescribed, hrest]
      rfl

end

/-! ## Files -/

/-- A file that can be described is loaded from its description and from its descriptor, as schemas that
are the same but for packed options and for a package that is not there. -/
theorem FileDescriptor.exists_schemas {f : FileDescriptor} (h : f.isPlain = true) :
    ∃ s, f.toSchema = .ok s ∧ Schema.ofValue f.describe =
      .ok { s.alter (Field.assumePacked s.version) with package := .str f.package } := by
  have hversion : Description.versionOf (.str (if f.version = "proto3" then "proto3" else "proto2")) =
      .ok (if f.version = "proto3" then .proto3 else .proto2) := by
    split <;> rfl
  generalize hv : (if f.version = "proto3" then Version.proto3 else Version.proto2) = version at hversion
  obtain ⟨messages, hmessages, hdescribed⟩ :=
    MessageDescriptor.exists_messages f.package version f.messages h
  refine ⟨_, by rw [toSchema, hv, hmessages]; rfl, ?_⟩
  rw [describe, Value.record, Description.ofValue_dict rfl rfl rfl, hversion]
  simp only [bind, Except.bind]
  rw [EnumDescriptor.mapM_enumOf, Description.nestedOf_record (by decide) (by decide) (by decide), hdescribed]
  rfl

end ProtoScribe
