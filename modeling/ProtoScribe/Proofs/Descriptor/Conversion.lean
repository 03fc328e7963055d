import ProtoScribe.Descriptor.Basic
import ProtoScribe.Proofs.Scope.Names

/-!
# Schemas of described files

Every message of the schema of a file comes from a descriptor of the file: its fields are those that the
descriptor lists, one by one and in order, and the types declared in it have the names that they have
there (`FileDescriptor.exists_descriptor`). A field that refers to a type has its name without the
package, if it is of the package (`relativeTo_eq_dot_iff`).
-/

namespace ProtoScribe

/-! ## Names and packages -/

/-- What the full names of the types of a package start with. -/
def packageStart (package : String) : String :=
  if package.isEmpty then "." else "." ++ package ++ "."

theorem relativeTo_eq (package typeName : String) :
    relativeTo package typeName =
      if (packageStart package).toList.isPrefixOf typeName.toList then
        String.ofList ('.' :: typeName.toList.drop (packageStart package).toList.length)
      else typeName := by
  have hstart : (if package.isEmpty then ['.'] else '.' :: package.toList ++ ['.']) =
      (packageStart package).toList := by
    unfold packageStart
    split <;> simp
  rw [relativeTo, hstart]

theorem dot_append_inj {a b : String} : "." ++ a = "." ++ b ↔ a = b := by
  constructor
  · intro h
    have hlist := congrArg String.toList h
    simp only [String.toList_append] at hlist
    exact String.toList_injective (List.append_cancel_left hlist)
  · rintro rfl
    rfl

/-- A name of the package loses the package. -/
theorem relativeTo_packageStart (package rest : String) :
    relativeTo package (packageStart package ++ rest) = "." ++ rest := by
  have hprefix : (packageStart package).toList.isPrefixOf (packageStart package ++ rest).toList = true := by
    simp
  rw [relativeTo_eq, if_pos hprefix, String.toList_append, List.drop_left]
  apply String.toList_injective
  simp

/-- Any other name stays as it is. -/
theorem relativeTo_of_outside {package typeName : String}
    (h : ∀ rest, typeName ≠ packageStart package ++ rest) : relativeTo package typeName = typeName := by
  rw [relativeTo_eq, if_neg]
  intro hprefix
  obtain ⟨rest, hrest⟩ := List.isPrefixOf_iff_prefix.1 hprefix
  apply h (String.ofList rest)
  apply String.toList_injective
  simp [hrest]

/-- The full names that read as one name in the package: that name after the package, and the name
itself, if it is outside the package. -/
theorem relativeTo_eq_dot_iff {package typeName name : String} :
    relativeTo package typeName = "." ++ name ↔ typeName = packageStart package ++ name ∨
      (∀ rest, typeName ≠ packageStart package ++ rest) ∧ typeName = "." ++ name := by
  by_cases h : ∃ rest, typeName = packageStart package ++ rest
  · obtain ⟨rest, rfl⟩ := h
    rw [relativeTo_packageStart, dot_append_inj]
    constructor
    · rintro rfl
      exact .inl rfl
    · rintro (h | ⟨h, -⟩)
      · have hlist := congrArg String.toList h
        simp only [String.toList_append] at hlist
        exact String.toList_injective (List.append_cancel_left hlist)
      · exact absurd rfl (h rest)
  · have houtside : ∀ rest, typeName ≠ packageStart package ++ rest := fun rest hrest => h ⟨rest, hrest⟩
    rw [relativeTo_of_outside houtside]
    constructor
    · intro h
      exact .inr ⟨houtside, h⟩
    · rintro (h | ⟨-, h⟩)
      · exact absurd h (houtside name)
      · exact h

theorem exists_relativeTo_eq_dot {package typeName : String} (h : ∃ t, typeName = "." ++ t) :
    ∃ t, relativeTo package typeName = "." ++ t := by
  by_cases hin : ∃ rest, typeName = packageStart package ++ rest
  · obtain ⟨rest, rfl⟩ := hin
    exact ⟨rest, relativeTo_packageStart package rest⟩
  · rw [relativeTo_of_outside fun rest hrest => hin ⟨rest, hrest⟩]
    exact h

def FieldDescriptor.isReference (d : FieldDescriptor) : Bool := d.type = messageCode ∨ d.type = enumCode

theorem FieldDescriptor.toField_reference {d : FieldDescriptor} (hd : d.isReference = true)
    {package : String} {version : Version} {field : Field} (h : d.toField package version = .ok field) :
    field.type = .str (relativeTo package d.typeName) := by
  obtain ⟨type, htype, h⟩ := Outcome.bind_ok h
  cases h
  have hcode := of_decide_eq_true hd
  have hscalar : scalarOfCode? d.type = none := by
    rcases hcode with hcode | hcode <;> rw [hcode] <;> rfl
  rw [typeOf, hscalar] at htype
  simp only [if_pos hcode] at htype
  cases htype
  rfl

/-! ## All messages of a file -/

namespace MessageDescriptor

mutual

def all : MessageDescriptor → List MessageDescriptor
  | ⟨name, fields, enums, messages⟩ => ⟨name, fields, enums, messages⟩ :: allOf messages

def allOf : List MessageDescriptor → List MessageDescriptor
  | [] => []
  | m :: rest => all m ++ allOf rest

end

def typeNames (m : MessageDescriptor) : List String := m.enums.map (·.name) ++ m.messages.map (·.name)

/-- What a message takes over from its descriptor. -/
structure Describes (package : String) (version : Version) (d : MessageDescriptor) (m : Message) :
    Prop where
  fields : List.Forall₂ (fun d f => d.toField package version = .ok f) d.fields m.fields
  typeNames : m.typeNames = d.typeNames.map .str

variable {package : String} {version : Version}

theorem toMessage_name {d : MessageDescriptor} {m : Message}
    (h : d.toMessage package version = .ok m) : m.name = .str d.name := by
  cases d
  rw [toMessage] at h
  obtain ⟨fields, -, h⟩ := Outcome.bind_ok h
  obtain ⟨messages, -, h⟩ := Outcome.bind_ok h
  cases h
  rfl

theorem toMessages_names {ds : List MessageDescriptor} {ms : List Message}
    (h : toMessages package version ds = .ok ms) : ms.map (·.name) = ds.map (Value.str ·.name) := by
  induction ds generalizing ms with
  | nil =>
    cases h
    rfl
  | cons d rest ih =>
    rw [toMessages] at h
    obtain ⟨m, hm, h⟩ := Outcome.bind_ok h
    obtain ⟨ms, hms, h⟩ := Outcome.bind_ok h
    cases h
    rw [List.map_cons, List.map_cons, toMessage_name hm, ih hms]

/-- The names of types declared side by side are those that were described. -/
theorem typeNames_of_toMessages {ds : List MessageDescriptor} {ms : List Message}
    (h : toMessages package version ds = .ok ms) (es : List EnumDescriptor) :
    (es.map (·.toEnum)).map (·.name) ++ ms.map (·.name) =
      (es.map (·.name) ++ ds.map (·.name)).map Value.str := by
  rw [toMessages_names h, List.map_append, List.map_map, List.map_map, List.map_map]
  rfl

mutual

theorem exists_all : ∀ (d : MessageDescriptor) {m : Message}, d.toMessage package version = .ok m →
    ∀ m' ∈ m.all, ∃ d' ∈ d.all, Describes package version d' m'
  | ⟨name, fields, enums, messages⟩, m, h, m', hm' => by
    rw [toMessage] at h
    obtain ⟨fields', hfields, h⟩ := Outcome.bind_ok h
    obtain ⟨messages', hmessages, h⟩ := Outcome.bind_ok h
    cases h
    rw [Message.all] at hm'
    rw [all]
    rcases List.mem_cons.1 hm' with rfl | hm'
    · exact ⟨_, List.mem_cons_self, Outcome.mapM_ok hfields, typeNames_of_toMessages hmessages enums⟩
    · obtain ⟨d', hd', hdescribes⟩ := exists_allOf messages hmessages m' hm'
      exact ⟨d', List.mem_cons_of_mem _ hd', hdescribes⟩

theorem exists_allOf : ∀ (ds : List MessageDescriptor) {ms : List Message},
    toMessages package version ds = .ok ms →
    ∀ m' ∈ Message.allOf ms, ∃ d' ∈ allOf ds, Describes package version d' m'
  | [], ms, h, m', hm' => by
    cases h
    rw [Message.allOf] at hm'
    cases hm'
  | d :: rest, ms, h, m', hm' => by
    rw [toMessages] at h
    obtain ⟨m, hm, h⟩ := Outcome.bind_ok h
    obtain ⟨ms, hms, h⟩ := Outcome.bind_ok h
    cases h
    rw [Message.allOf] at hm'
    rw [allOf]
    rcases List.mem_append.1 hm' with hm' | hm'
    · obtain ⟨d', hd', hdescribes⟩ := exists_all d hm m' hm'
      exact ⟨d', List.mem_append_left _ hd', hdescribes⟩
    · obtain ⟨d', hd', hdescribes⟩ := exists_allOf rest hms m' hm'
      exact ⟨d', List.mem_append_right _ hd', hdescribes⟩

end

end MessageDescriptor

/-! ## Files -/

namespace FileDescriptor

def allMessages (f : FileDescriptor) : List MessageDescriptor := MessageDescriptor.allOf f.messages

def typeNames (f : FileDescriptor) : List String := f.enums.map (·.name) ++ f.messages.map (·.name)

variable {f : FileDescriptor} {s : Schema}

theorem toSchema_ok (h : f.toSchema = .ok s) :
    MessageDescriptor.toMessages f.package s.version f.messages = .ok s.messages ∧
      s.enums = f.enums.map (·.toEnum) := by
  obtain ⟨messages, hmessages, h⟩ := Outcome.bind_ok h
  cases h
  exact ⟨hmessages, rfl⟩

/-- Every message of the schema of a file is described in the file. -/
theorem exists_descriptor (h : f.toSchema = .ok s) {m : Message} (hm : m ∈ s.allMessages) :
    ∃ d ∈ f.allMessages, d.Describes f.package s.version m :=
  MessageDescriptor.exists_allOf f.messages (toSchema_ok h).1 m hm

theorem typeNames_of_toSchema (h : f.toSchema = .ok s) : s.typeNames = f.typeNames.map .str := by
  obtain ⟨hmessages, henums⟩ := toSchema_ok h
  rw [Schema.typeNames, henums]
  exact MessageDescriptor.typeNames_of_toMessages hmessages f.enums

end FileDescriptor

end ProtoScribe
