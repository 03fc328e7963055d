import ProtoScribe.Proofs.Descriptor.Conversion
import ProtoScribe.Proofs.Scope.Paths

/-!
# References of described files

A descriptor names the type of a field in full: a dot, the package, and the qualified name. The schema of
a file refers to its types without the package, and to the types of other packages as they are named, so
that a reference to a type of another package can read like one to a type of the file.
`FileDescriptor.references_resolve` says which types are found: the one that is named, and besides it
one whose name in the file is the whole name of a type outside the package.
`FileDescriptor.outside_reference_found_inside` is a reference of the second sort.
-/

namespace ProtoScribe

/-! ## Names of types -/

/-- Whether types can be described side by side under some names: none is empty or has a dot in it, and
no two are the same. -/
def Text.areNames (names : List String) : Bool :=
  names.all (fun s => s ≠ "" && '.' ∉ s.toList) && decide names.Nodup

theorem Value.areNames_map_str {names : List String} (h : Text.areNames names = true) :
    AreNames (names.map .str) := by
  obtain ⟨hall, hnodup⟩ := Bool.and_eq_true_iff.1 h
  refine ⟨(of_decide_eq_true hnodup).map fun a b hab => Value.str.inj hab, fun v hv => ?_⟩
  obtain ⟨s, hs, rfl⟩ := List.mem_map.1 hv
  have hname := List.all_eq_true.1 hall s hs
  simp only [Bool.and_eq_true, decide_eq_true_eq] at hname
  exact ⟨s, rfl, hname⟩

namespace FileDescriptor

/-- Whether all types of a file have names that tell them apart from those described beside them. -/
def named (f : FileDescriptor) : Bool :=
  Text.areNames f.typeNames && f.allMessages.all fun m => Text.areNames m.typeNames

variable {f : FileDescriptor} {s : Schema} {root : Scope}

theorem named_toSchema (h : f.toSchema = .ok s) (hf : f.named = true) : s.Named := by
  obtain ⟨htop, hmessages⟩ := Bool.and_eq_true_iff.1 hf
  constructor
  · rw [typeNames_of_toSchema h]
    exact Value.areNames_map_str htop
  · intro m hm
    obtain ⟨d, hd, hdescribes⟩ := exists_descriptor h hm
    rw [hdescribes.typeNames]
    exact Value.areNames_map_str (List.all_eq_true.1 hmessages d hd)

/-! ## What references mean -/

/-- What the type of a field means in the schema of a file, wherever the field is declared: the type of
the file that its descriptor names, or, if the descriptor names a type outside the package, the type of
the file that has this name without a package. -/
theorem references_resolve (hs : f.toSchema = .ok s) (hroot : Scope.ofSchema s = .ok root)
    (hf : f.named = true) {c q : Place} (hc : c ∈ root.walk) (hq : q ∈ root.walk) {d : FieldDescriptor}
    (hd : d.isReference = true) (hname : ∃ t, d.typeName = "." ++ t) {field : Field}
    (hfield : d.toField f.package s.version = .ok field) :
    ∃ type, field.type = .str type ∧
      (c.resolve type = some q ↔ q ≠ ⟨root, []⟩ ∧ ∃ name, q.scope.name = .str name ∧
        (d.typeName = packageStart f.package ++ name ∨
          (∀ rest, d.typeName ≠ packageStart f.package ++ rest) ∧ d.typeName = "." ++ name)) := by
  refine ⟨_, FieldDescriptor.toField_reference hd hfield, ?_⟩
  have hspelled := Schema.spelled_of_ofSchema hroot (named_toSchema hs hf)
  obtain ⟨t, ht⟩ : ∃ t, relativeTo f.package d.typeName = "." ++ t := exists_relativeTo_eq_dot hname
  rw [ht, hspelled.resolve_anchored (Scope.mem_walk_iff.1 hc) (Scope.mem_walk_iff.1 hq)]
  refine and_congr_right fun _ => ?_
  constructor
  · intro hqname
    exact ⟨t, hqname, relativeTo_eq_dot_iff.1 ht⟩
  · rintro ⟨name, hqname, hdenotes⟩
    have hsame := relativeTo_eq_dot_iff.2 hdenotes
    rw [ht, dot_append_inj] at hsame
    rw [hqname, hsame]

/-- Whether two types of a file are as wanted, in the tree of its schema. -/
def anyPlaces (f : FileDescriptor) (check : Schema → Place → Place → Bool) : Bool :=
  match f.toSchema with
  | .error _ => false
  | .ok s => match Scope.ofSchema s with
    | .error _ => false
    | .ok root => root.walk.any fun c => root.walk.any fun q => check s c q

theorem of_anyPlaces {check : Schema → Place → Place → Bool} (h : f.anyPlaces check = true) :
    ∃ s root c q, f.toSchema = .ok s ∧ Scope.ofSchema s = .ok root ∧ c ∈ root.walk ∧ q ∈ root.walk ∧
      check s c q = true := by
  unfold anyPlaces at h
  split at h
  · cases h
  · next s hs =>
    split at h
    · cases h
    · next root hroot =>
      obtain ⟨c, hc, h⟩ := List.any_eq_true.1 h
      obtain ⟨q, hq, h⟩ := List.any_eq_true.1 h
      exact ⟨s, root, c, q, hs, hroot, hc, hq, h⟩

/-- A field of an enumeration that is described inside another message of the package. -/
def kindReference : FieldDescriptor where
  name := "kinds"
  number := 1
  repeated := true
  type := enumCode
  typeName := ".geo.map.Tile.Kind"
  defaultValue := none
  packed := none

def tileFile : FileDescriptor where
  name := "tile.proto"
  package := "geo.map"
  version := "proto3"
  enums := []
  messages := [
    ⟨"Tile", [], [⟨"Kind", [("PLAIN", 0)]⟩], []⟩,
    ⟨"Layer", [kindReference], [], []⟩]

def kindField : Field where
  name := .str "kinds"
  type := .str ".Tile.Kind"
  tag := 1
  repeated := true
  options := [("packed", "true")]

theorem kindReference_resolves : ∃ s root c q, tileFile.toSchema = .ok s ∧
    Scope.ofSchema s = .ok root ∧ c ∈ root.walk ∧ q ∈ root.walk ∧ kindField ∈ c.scope.fields ∧
    q.scope.name = .str "Tile.Kind" ∧ c.resolve ".Tile.Kind" = some q := by
  obtain ⟨s, root, c, q, hs, hroot, hc, hq, hcheck⟩ : ∃ s root c q, tileFile.toSchema = .ok s ∧
      Scope.ofSchema s = .ok root ∧ c ∈ root.walk ∧ q ∈ root.walk ∧
      decide (kindReference.toField tileFile.package s.version = .ok kindField ∧
        kindField ∈ c.scope.fields ∧ q.scope.name = .str "Tile.Kind" ∧ q.outer.isEmpty = false) = true :=
    of_anyPlaces (by decide +kernel)
  obtain ⟨hfield, hmem, hname, houter⟩ := of_decide_eq_true hcheck
  refine ⟨s, root, c, q, hs, hroot, hc, hq, hmem, hname, ?_⟩
  obtain ⟨type, htype, hresolves⟩ := references_resolve hs hroot (by decide +kernel) hc hq (by decide)
    ⟨"geo.map.Tile.Kind", by decide +kernel⟩ hfield
  cases htype
  apply hresolves.2
  refine ⟨?_, "Tile.Kind", hname, .inl (by decide +kernel)⟩
  rintro rfl
  cases houter

/-- A field of a type that is declared outside any package. -/
def outsideReference : FieldDescriptor where
  name := "x"
  number := 1
  repeated := false
  type := messageCode
  typeName := ".Bar"
  defaultValue := none
  packed := none

/-- A file of a package that has such a field, and a type of the same name. -/
def outsideFile : FileDescriptor where
  name := "m.proto"
  package := "p"
  version := "proto3"
  enums := []
  messages := [⟨"Bar", [], [], []⟩, ⟨"M", [outsideReference], [], []⟩]

/-- The field is found to be of the type of the file. -/
theorem outside_reference_found_inside : outsideFile.named = true ∧
    outsideReference.typeName ≠ packageStart outsideFile.package ++ "Bar" ∧
    ∃ s root c q, outsideFile.toSchema = .ok s ∧ Scope.ofSchema s = .ok root ∧ c ∈ root.walk ∧
      q ∈ root.walk ∧ c.scope.fields.map (·.type) = [.str ".Bar"] ∧ c.resolve ".Bar" = some q ∧
      q.scope.name = .str "Bar" := by
  refine ⟨by decide +kernel, by decide +kernel, ?_⟩
  obtain ⟨s, root, c, -, hs, hroot, hc, -, hcheck⟩ : ∃ s root c q, outsideFile.toSchema = .ok s ∧
      Scope.ofSchema s = .ok root ∧ c ∈ root.walk ∧ q ∈ root.walk ∧
      decide (c.scope.fields.map (·.type) = [.str ".Bar"] ∧
        (c.resolve ".Bar").any (·.scope.name = .str "Bar") = true) = true :=
    of_anyPlaces (by decide +kernel)
  obtain ⟨htypes, hfound⟩ := of_decide_eq_true hcheck
  obtain ⟨q, hq, hname⟩ := (Option.any_eq_true _ _).1 hfound
  have hwithin : Place.Within root q := (Scope.mem_walk_iff.1 hc).resolve hq
  exact ⟨s, root, c, q, hs, hroot, hc, Scope.mem_walk_iff.2 hwithin, htypes, hq, of_decide_eq_true hname⟩

end FileDescriptor

end ProtoScribe
