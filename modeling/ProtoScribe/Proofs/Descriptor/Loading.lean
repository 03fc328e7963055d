import ProtoScribe.Code.Printer
import ProtoScribe.Proofs.Code.Options
import ProtoScribe.Proofs.Descriptor.Description

/-!
# Two ways to load a file

A file that can be described is loaded from its descriptor and from its description with the same
result, as far as anything but the text of options goes: the same types, defaults, meanings and packed
fields, and the same code (`FileDescriptor.loaders_agree`). The exception are fields that a descriptor
says are messages and whose type is found to be an enumeration (`FileDescriptor.Mistakes`): a
description packs them if they are repeated, a descriptor does not. This happens where a type outside
the package is named like an enumeration inside it (`FileDescriptor.loaders_disagree`).
-/

namespace ProtoScribe

/-! ## Packed fields -/

theorem Scalar.ofKeyword?_dot (name : String) : ofKeyword? ("." ++ name) = none := by
  rw [ofKeyword?, List.find?_eq_none]
  intro t _ hkeyword
  have hhead : t.keyword.toList.head? = some '.' := by
    rw [of_decide_eq_true hkeyword]
    simp
  cases t <;> exact absurd hhead (by decide)

theorem Place.target_scalar {p : Place} {f : Field} {t : Scalar} (h : p.target f = .ok (.scalar t)) :
    ∃ type, f.type = .str type ∧ Scalar.ofKeyword? type = some t := by
  obtain ⟨type, htype, h⟩ := Outcome.bind_ok h
  have hstr : f.type = .str type := by
    cases hvalue : f.type <;> rw [hvalue] at htype <;> cases htype
    rfl
  refine ⟨type, hstr, ?_⟩
  split at h
  · split at h <;> cases h
  · split at h
    · next hscalar =>
      cases h
      exact hscalar
    · cases h

/-- Assuming a packed option changes whether a field is packed, where it is not there and the type of
the field can be packed. -/
theorem Field.isPacked_assumePacked_ne_iff {version : Version} {f : Field} {t : Target} :
    (f.assumePacked version).isPacked t ≠ f.isPacked t ↔
      (version = .proto3 ∧ f.repeated = true ∧ f.option? "packed" = none ∧ f.type ≠ .str "string" ∧
        f.type ≠ .str "bytes") ∧ t.packable = true := by
  unfold assumePacked
  split
  · next hassumes =>
    obtain ⟨-, hrepeated, hnone, -⟩ := id hassumes
    have hpacked : Field.packed { f with options := f.options ++ [("packed", "true")] } = true := by
      have hoption : (f.options ++ [("packed", "true")]).lookup "packed" = some "true" := by
        rw [List.lookup_append]
        show (f.option? "packed").or _ = _
        rw [hnone]
        rfl
      unfold packed option?
      rw [hoption, hrepeated]
      rfl
    have hunpacked : f.packed = false := by
      rw [packed, hnone, Bool.and_false]
    have hpackable : Field.packable { f with options := f.options ++ [("packed", "true")] } t = t.packable := by
      rw [packable, hrepeated, Bool.true_and]
    rw [isPacked, isPacked, hpacked, hunpacked, hpackable, Bool.true_and, Bool.false_and]
    simp [hassumes]
  · next hassumes => simp [hassumes]

namespace FieldDescriptor

variable {d : FieldDescriptor} {package : String} {version : Version} {f : Field}

theorem option?_packed (hplain : d.isPlain = true) (hf : d.toField package version = .ok f) :
    f.option? "packed" = (d.packedOption version (d.describeType package)).lookup "packed" := by
  rw [toField_of_isPlain hplain] at hf
  cases hf
  show List.lookup _ (_ ++ _) = _
  rw [List.lookup_append]
  cases d.defaultValue <;> rfl

/-- Fields without packed option after loading a descriptor have none in the descriptor, and are no
fields that are packed without asking. -/
theorem packedOption_eq_nil (hplain : d.isPlain = true) (hf : d.toField package version = .ok f)
    (hnone : f.option? "packed" = none) :
    d.packed = none ∧ d.packedOption version (d.describeType package) = [] := by
  rw [option?_packed hplain hf] at hnone
  cases hpacked : d.packed with
  | some b =>
    rw [packedOption, hpacked] at hnone
    cases hnone
  | none =>
    refine ⟨rfl, ?_⟩
    rw [packedOption_of_none hpacked] at hnone ⊢
    split at hnone
    · cases hnone
    · next hpacks => rw [if_neg hpacks]

/-- A repeated field of the newer version without packed option after loading a descriptor is of a
message type, or of text or bytes. -/
theorem messageCode_of_assumed (hplain : d.isPlain = true) (hf : d.toField package .proto3 = .ok f)
    (hrepeated : f.repeated = true) (hnone : f.option? "packed" = none) (hstring : f.type ≠ .str "string")
    (hbytes : f.type ≠ .str "bytes") : d.type = messageCode ∧ d.repeated = true ∧ d.packed = none := by
  obtain ⟨hpacked, hoption⟩ := packedOption_eq_nil hplain hf hnone
  rw [packedOption_of_none hpacked] at hoption
  rw [toField_of_isPlain hplain] at hf
  cases hf
  refine ⟨?_, hrepeated, hpacked⟩
  have hunpacked : ¬ (d.type = enumCode ∨
      ((Scalar.ofKeyword? (d.describeType package)).any fun t => t.coding.packable) = true) := by
    intro hpacks
    rw [if_pos ⟨rfl, hrepeated, hpacks⟩] at hoption
    cases hoption
  rw [not_or] at hunpacked
  obtain ⟨hcode, hpackable⟩ := hunpacked
  cases hscalar : scalarOfCode? d.type with
  | none =>
    -- a type with a name is a message or an enumeration
    have href := of_decide_eq_true (describeType_of_reference package hplain hscalar).1
    exact href.resolve_right hcode
  | some t =>
    -- a built-in type that is not packed is text or bytes
    have htype : d.describeType package = t.keyword := describeType_of_scalar hscalar
    rw [htype, Scalar.ofKeyword?_keyword] at hpackable
    simp only [htype] at hstring hbytes
    cases t with
    | string => exact absurd rfl hstring
    | bytes => exact absurd rfl hbytes
    | _ => exact absurd rfl hpackable

/-- A packed option is assumed for every repeated field of a message type that has none. -/
theorem assumed_of_messageCode (hplain : d.isPlain = true) (hf : d.toField package version = .ok f)
    (hcode : d.type = messageCode) (hpacked : d.packed = none) :
    f.repeated = d.repeated ∧ f.option? "packed" = none ∧ ∃ name, f.type = .str ("." ++ name) := by
  have hscalar : scalarOfCode? d.type = none := by
    rw [hcode]
    rfl
  obtain ⟨-, name, hname⟩ := describeType_of_reference package hplain hscalar
  have hoption := option?_packed hplain hf
  rw [packedOption_of_none hpacked, if_neg] at hoption
  · rw [toField_of_isPlain hplain] at hf
    cases hf
    exact ⟨rfl, hoption, name, congrArg Value.str hname⟩
  · rintro ⟨-, -, henum | hpackable⟩
    · rw [hcode] at henum
      cases henum
    · rw [hname, Scalar.ofKeyword?_dot] at hpackable
      cases hpackable

end FieldDescriptor

/-! ## Where loading differs -/

theorem FieldDescriptor.bare_of_toField {d : FieldDescriptor} {package : String} {version : Version}
    {f : Field} (h : d.toField package version = .ok f) : f.bare = f := by
  obtain ⟨type, -, h⟩ := Outcome.bind_ok h
  cases h
  rfl

namespace MessageDescriptor

mutual

theorem fields_of_isPlain : ∀ d : MessageDescriptor, d.isPlain = true →
    ∀ d' ∈ d.all, d'.fields.all (·.isPlain) = true
  | ⟨name, fields, enums, messages⟩, h, d', hd' => by
    rw [isPlain, Bool.and_eq_true] at h
    rw [all] at hd'
    rcases List.mem_cons.1 hd' with rfl | hd'
    · exact h.1
    · exact fields_of_arePlain messages h.2 d' hd'

theorem fields_of_arePlain : ∀ ds : List MessageDescriptor, arePlain ds = true →
    ∀ d' ∈ allOf ds, d'.fields.all (·.isPlain) = true
  | [], _, d', hd' => by
    rw [allOf] at hd'
    cases hd'
  | d :: rest, h, d', hd' => by
    rw [arePlain, Bool.and_eq_true] at h
    rw [allOf] at hd'
    rcases List.mem_append.1 hd' with hd' | hd'
    · exact fields_of_isPlain d h.1 d' hd'
    · exact fields_of_arePlain rest h.2 d' hd'

end

end MessageDescriptor

namespace FileDescriptor

variable {f : FileDescriptor} {s : Schema} {root : Scope} {p : Place} {field : Field}

/-- Every field of the tree of a file is described in the file. -/
theorem exists_fieldDescriptor (hs : f.toSchema = .ok s) (hroot : s.context = .ok root)
    (hp : p ∈ root.walk) (hfield : field ∈ p.scope.fields) :
    ∃ m ∈ f.allMessages, ∃ d ∈ m.fields, d.toField f.package s.version = .ok field.bare := by
  cases (Schema.context_declared hroot (Scope.mem_walk_iff.1 hp)).declares with
  | root kind labels fields | enumeration values kind labels fields =>
    rw [fields] at hfield
    cases hfield
  | message m mem kind labels fields =>
    obtain ⟨dm, hdm, hdescribes⟩ := exists_descriptor hs mem
    have hbare : field.bare ∈ m.fields.map Field.bare := fields ▸ List.mem_map_of_mem hfield
    obtain ⟨field', hfield', hsame⟩ := List.mem_map.1 hbare
    obtain ⟨d, hd, hconverts⟩ := Outcome.exists_left hdescribes.fields hfield'
    refine ⟨dm, hdm, d, hd, ?_⟩
    rw [hconverts, ← hsame, FieldDescriptor.bare_of_toField hconverts]

/-- The fields of a file that can be described have types that can. -/
theorem isPlain_of_mem (hf : f.isPlain = true) {m : MessageDescriptor} (hm : m ∈ f.allMessages)
    {d : FieldDescriptor} (hd : d ∈ m.fields) : d.isPlain = true :=
  List.all_eq_true.1 (MessageDescriptor.fields_of_arePlain f.messages hf m hm) d hd

/-- A field on which the two ways of loading a file differ: in the newer version, a repeated field that
its descriptor says is a message, without packed option, whose type is found to be an enumeration. -/
def Mistakes (f : FileDescriptor) (version : Version) (p : Place) (field : Field) : Prop :=
  version = .proto3 ∧ (∃ q, p.target field = .ok (.enumeration q)) ∧
    ∃ m ∈ f.allMessages, ∃ d ∈ m.fields, d.toField f.package version = .ok field.bare ∧
      d.type = messageCode ∧ d.repeated = true ∧ d.packed = none

/-- These are the fields that are packed on one side and not on the other. -/
theorem mistakes_iff (hf : f.isPlain = true) (hs : f.toSchema = .ok s) (hroot : s.context = .ok root)
    (hp : p ∈ root.walk) (hfield : field ∈ p.scope.fields) :
    f.Mistakes s.version p field ↔
      ∃ t, p.target field = .ok t ∧ (field.assumePacked s.version).isPacked t ≠ field.isPacked t := by
  constructor
  · rintro ⟨hversion, ⟨q, hq⟩, m, hm, d, hd, hconverts, hcode, hrepeated, hpacked⟩
    have hplain := isPlain_of_mem hf hm hd
    obtain ⟨hsame, hnone, name, hname⟩ := FieldDescriptor.assumed_of_messageCode hplain hconverts hcode hpacked
    have hne : ∀ keyword : Scalar, field.type ≠ .str keyword.keyword := by
      intro keyword heq
      have hdot : "." ++ name = keyword.keyword := Value.str.inj (hname.symm.trans heq)
      have hkeyword := keyword.ofKeyword?_keyword
      rw [← hdot, Scalar.ofKeyword?_dot] at hkeyword
      cases hkeyword
    refine ⟨.enumeration q, hq, Field.isPacked_assumePacked_ne_iff.2 ⟨⟨hversion, ?_, hnone, ?_, ?_⟩, rfl⟩⟩
    · exact hsame.trans hrepeated
    · exact hne .string
    · exact hne .bytes
  · rintro ⟨t, ht, hne⟩
    obtain ⟨⟨hversion, hrepeated, hnone, hstring, hbytes⟩, hpackable⟩ :=
      Field.isPacked_assumePacked_ne_iff.1 hne
    obtain ⟨m, hm, d, hd, hconverts⟩ := exists_fieldDescriptor hs hroot hp hfield
    have hplain := isPlain_of_mem hf hm hd
    have hnewer : d.toField f.package .proto3 = .ok field.bare := hversion ▸ hconverts
    obtain ⟨hcode, hrep, hpacked⟩ :=
      FieldDescriptor.messageCode_of_assumed hplain hnewer hrepeated hnone hstring hbytes
    refine ⟨hversion, ?_, m, hm, d, hd, hconverts, hcode, hrep, hpacked⟩
    cases t with
    | enumeration q => exact ⟨q, ht⟩
    | message q => cases hpackable
    | scalar t =>
      -- a name with a dot in front of it is no keyword
      obtain ⟨-, -, name, hname⟩ := FieldDescriptor.assumed_of_messageCode hplain hconverts hcode hpacked
      obtain ⟨type, htype, hscalar⟩ := Place.target_scalar ht
      have hdot : "." ++ name = type := Value.str.inj (hname.symm.trans htype)
      rw [← hdot, Scalar.ofKeyword?_dot] at hscalar
      cases hscalar

/-! ## Where loading agrees -/

/-- A file that can be described can be loaded both ways. All that can be told of the two schemas, and
the code generated for them, is the same, unless a field is found to be of an enumeration that its
descriptor says is a message. -/
theorem loaders_agree (hf : f.isPlain = true) :
    ∃ s s', f.toSchema = .ok s ∧ Schema.ofValue f.describe = .ok s' ∧
      (s'.views = s.views ↔ ∀ root, s.context = .ok root →
        ∀ p ∈ root.walk, ∀ field ∈ p.scope.fields, ¬ f.Mistakes s.version p field) ∧
      (s'.views = s.views → ∀ options exports, s'.code options exports = s.code options exports) := by
  obtain ⟨s, hs, hdescribed⟩ := exists_schemas hf
  refine ⟨s, _, hs, hdescribed, ?_⟩
  have hg := Field.altersOptions_assumePacked s.version
  have hviews : Schema.views { s.alter (Field.assumePacked s.version) with package := .str f.package } =
      s.views ↔ ∀ root, s.context = .ok root → ∀ p ∈ root.walk, p.SamePacking (Field.assumePacked s.version) :=
    Schema.views_alter_iff hg s
  constructor
  · rw [hviews]
    constructor
    · intro hsame root hroot p hp field hfield hmistakes
      obtain ⟨t, ht, hne⟩ := (mistakes_iff hf hs hroot hp hfield).1 hmistakes
      exact hne (hsame root hroot p hp field hfield t ht)
    · intro hnone root hroot p hp field hfield t ht
      by_contra hne
      exact hnone root hroot p hp field hfield ((mistakes_iff hf hs hroot hp hfield).2 ⟨t, ht, hne⟩)
  · intro hsame options exports
    exact Schema.code_alter hg (hviews.1 hsame) options exports

def layerFile : FileDescriptor where
  name := "layer.proto"
  package := "geo"
  version := "proto3"
  enums := [⟨"Kind", [("PLAIN", 0), ("OTHER", 1), ("SAME", 1)]⟩]
  messages := [
    ⟨"Layer", [
      ⟨"names", 1, true, 9, "", none, none⟩,
      ⟨"sizes", 2, true, 5, "", none, none⟩,
      ⟨"offsets", 3, true, 17, "", none, some false⟩,
      ⟨"kinds", 4, true, enumCode, ".geo.Kind", none, none⟩,
      ⟨"tile", 5, false, messageCode, ".geo.Layer.Tile", none, none⟩], [], [⟨"Tile", [], [], []⟩]⟩]

theorem layer_loaders_agree : ∃ s s', layerFile.toSchema = .ok s ∧
    Schema.ofValue layerFile.describe = .ok s' ∧ s'.views = s.views ∧
    ∀ options exports, s'.code options exports = s.code options exports := by
  obtain ⟨s, s', hs, hs', hviews, hcode⟩ := loaders_agree (f := layerFile) (by decide +kernel)
  have hnone : ∀ m ∈ layerFile.allMessages, ∀ d ∈ m.fields,
      ¬ (d.type = messageCode ∧ d.repeated = true ∧ d.packed = none) := by decide +kernel
  have hsame : s'.views = s.views := by
    apply hviews.2
    rintro root - p - field - ⟨-, -, m, hm, d, hd, -, hmessage⟩
    exact hnone m hm d hd hmessage
  exact ⟨s, s', hs, hs', hsame, hcode hsame⟩

/-- A file with a repeated field of a message type outside its package, and an enumeration of the same
name. -/
def shadowedFile : FileDescriptor where
  name := "m.proto"
  package := "p"
  version := "proto3"
  enums := []
  messages := [
    ⟨"foo", [], [⟨"Bar", [("A", 0)]⟩], []⟩,
    ⟨"M", [⟨"x", 1, true, messageCode, ".foo.Bar", none, none⟩], [], []⟩]

def packedFields (s : Schema) : Except Fault (List (List (Except Fault Bool))) :=
  s.views.map fun views => views.map fun view => view.2.map fun field => field.2.map (·.2.2)

/-- Whether a file is loaded both ways, from its descriptor and from its description, with schemas that
are as wanted. -/
def loadsBoth (f : FileDescriptor) (check : Schema → Schema → Bool) : Bool :=
  match f.toSchema, Schema.ofValue f.describe with
  | .ok s, .ok s' => check s s'
  | _, _ => false

theorem of_loadsBoth {check : Schema → Schema → Bool} (h : f.loadsBoth check = true) :
    ∃ s s', f.toSchema = .ok s ∧ Schema.ofValue f.describe = .ok s' ∧ check s s' = true := by
  unfold loadsBoth at h
  split at h
  · next s s' hs hs' => exact ⟨s, s', hs, hs', h⟩
  · cases h

/-- Its description packs the field, its descriptor does not. -/
theorem loaders_disagree : shadowedFile.isPlain = true ∧ ∃ s s', shadowedFile.toSchema = .ok s ∧
    Schema.ofValue shadowedFile.describe = .ok s' ∧ s'.views ≠ s.views ∧
    (s'.code { noRead := true } none).map Code.source ≠ (s.code { noRead := true } none).map Code.source := by
  refine ⟨by decide +kernel, ?_⟩
  obtain ⟨s, s', hs, hs', hcheck⟩ : ∃ s s', shadowedFile.toSchema = .ok s ∧
      Schema.ofValue shadowedFile.describe = .ok s' ∧ decide (packedFields s' ≠ packedFields s ∧
        (s'.code { noRead := true } none).map Code.source ≠ (s.code { noRead := true } none).map Code.source) = true :=
    of_loadsBoth (by decide +kernel)
  obtain ⟨hpacked, hsource⟩ := of_decide_eq_true hcheck
  refine ⟨s, s', hs, hs', ?_, hsource⟩
  intro hviews
  apply hpacked
  rw [packedFields, packedFields, hviews]

end FileDescriptor

end ProtoScribe
