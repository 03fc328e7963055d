import ProtoScribe.Proofs.Scope.Options
import ProtoScribe.Proofs.Scope.Paths

/-!
# When defaults can be attached

Attaching defaults to the fields of a tree fails exactly if a field declares a default literal that denotes
no value of its type, wherever in the tree that is (`Scope.attach_tests`).

`Outcome.Tests` states such a thing of a computation: it fails if something is wrong, with faults of one
kind, and succeeds otherwise. Computations in a row fail if one of them does, so that nothing has to be
said about their order.
-/

namespace ProtoScribe

/-! ## Computations that test something -/

namespace Outcome

variable {α β : Type} {kind : Fault.Kind} {bad bad' : Bool}

/-- The kind of the fault that a computation fails with. -/
def failure {α : Type} : Except Fault α → Option Fault.Kind
  | .ok _ => none
  | .error e => some e.kind

/-- A computation that fails if something is bad, with faults of one kind, and succeeds otherwise. -/
def Tests {α : Type} (kind : Fault.Kind) (bad : Bool) (x : Except Fault α) : Prop :=
  failure x = if bad then some kind else none

theorem Tests.ok (a : α) : Tests kind false (.ok a) := rfl

theorem Tests.not_bad {x : Except Fault α} {a : α} (h : Tests kind bad x) (hx : x = .ok a) :
    bad = false := by
  rw [Tests, hx] at h
  cases bad with
  | false => rfl
  | true => cases h

theorem Tests.congr {x : Except Fault α} (h : Tests kind bad x) (heq : bad = bad') : Tests kind bad' x :=
  heq ▸ h

/-- What is wrong first decides. -/
theorem Tests.failure_bind {x : Except Fault α} {f : α → Except Fault β} {found : Option Fault.Kind}
    (hx : Tests kind bad x) (hf : ∀ a, x = .ok a → failure (f a) = found) :
    failure (x >>= f) = if bad then some kind else found := by
  cases x with
  | ok a =>
    rw [hx.not_bad rfl]
    exact hf a rfl
  | error e =>
    cases bad with
    | true => exact hx
    | false => cases hx

theorem Tests.bind {x : Except Fault α} {f : α → Except Fault β} (hx : Tests kind bad x)
    (hf : ∀ a, x = .ok a → Tests kind bad' (f a)) : Tests kind (bad || bad') (x >>= f) := by
  rw [Tests, hx.failure_bind hf]
  cases bad <;> rfl

/-- A computation that is followed by one that cannot fail. -/
theorem Tests.map {x : Except Fault α} (hx : Tests kind bad x) (f : α → β) :
    Tests kind bad (x >>= fun a => pure (f a)) :=
  (hx.bind fun a _ => .ok (f a)).congr (Bool.or_false bad)

theorem Tests.mapM {f : α → Except Fault β} {bad : α → Bool} {as : List α}
    (h : ∀ a ∈ as, Tests kind (bad a) (f a)) : Tests kind (as.any bad) (as.mapM f) := by
  induction as with
  | nil => exact .ok []
  | cons a as ih =>
    rw [List.mapM_cons, List.any_cons]
    apply (h a (by simp)).bind
    intro b _
    apply Tests.map
    apply ih
    intro a' ha'
    exact h a' (by simp [ha'])

end Outcome

open Outcome (Tests)

/-! ## Schemas of texts -/

def Value.isText : Value → Bool
  | .str _ => true
  | _ => false

theorem Value.exists_of_isText {v : Value} (h : v.isText = true) : ∃ s, v = .str s := by
  cases v with
  | str s => exact ⟨s, rfl⟩
  | _ => cases h

/-- Whether the names of all types and the types of all fields are texts. Nothing else is asked of them:
they may be empty, have dots in them, and be those of other types. -/
def Schema.isTextual (s : Schema) : Bool :=
  s.typeNames.all Value.isText &&
    s.allMessages.all fun m => m.typeNames.all Value.isText && m.fields.all fun f => f.type.isText

/-- A place where names and types can be read, also those of what is referred to. -/
structure Place.Legible (p : Place) : Prop where
  name : ∃ name, p.scope.name = .str name
  types : ∀ f ∈ p.scope.fields, ∃ type, f.type = .str type
  references : ∀ type q, p.resolve type = some q → q.kind ≠ .root ∧ ∃ name, q.scope.name = .str name
  leaf : ∀ values, p.kind = .enumeration values → p.scope.fields = [] ∧ p.scope.children = []

namespace Place

variable {p q : Place}

theorem outer_ne_nil_of_descend {path : List String} (h : p.outer ≠ [] ∨ path ≠ [])
    (hq : p.descend path = some q) : q.outer ≠ [] := by
  induction path generalizing p with
  | nil =>
    cases hq
    exact h.resolve_right fun hne => hne rfl
  | cons name rest ih =>
    obtain ⟨c, hc, hq⟩ := Option.bind_eq_some_iff.1 hq
    obtain ⟨scope, -, rfl⟩ := Option.map_eq_some_iff.1 hc
    exact ih (.inl (by simp [inside])) hq

/-- What a reference means is not the root: every reference has a component, if only an empty one. -/
theorem outer_ne_nil_of_resolve {type : String} (hq : p.resolve type = some q) : q.outer ≠ [] := by
  unfold resolve at hq
  split at hq
  · exact outer_ne_nil_of_descend (.inr (Text.components_ne_nil _)) hq
  · obtain ⟨o, -, hq⟩ := List.exists_of_findSome?_eq_some hq
    exact outer_ne_nil_of_descend (.inr (Text.components_ne_nil _)) hq

end Place

namespace Scope

mutual

theorem outer_ne_nil_of_mem_places : ∀ (s : Scope) {outer : List Scope}, outer ≠ [] →
    ∀ p ∈ s.places outer, p.outer ≠ []
  | ⟨label, name, isTop, kind, fields, children⟩, outer, h, p, hp => by
    rw [places] at hp
    rcases List.mem_cons.1 hp with rfl | hp
    · exact h
    · exact outer_ne_nil_of_mem_placesOf children (by simp) p hp

theorem outer_ne_nil_of_mem_placesOf : ∀ (ss : List Scope) {outer : List Scope}, outer ≠ [] →
    ∀ p ∈ placesOf outer ss, p.outer ≠ []
  | [], _, _, p, hp => by
    rw [placesOf] at hp
    cases hp
  | s :: rest, outer, h, p, hp => by
    rw [placesOf] at hp
    rcases List.mem_append.1 hp with hp | hp
    · exact outer_ne_nil_of_mem_places s h p hp
    · exact outer_ne_nil_of_mem_placesOf rest h p hp

end

end Scope

section

open Place (Within)

variable {s : Schema} {root : Scope} {p : Place} (hs : s.isTextual = true)
  (hroot : root.name = .str "") (hdeclared : ∀ p, Within root p → p.Declared s.typeNames s.allMessages)

include hs in
theorem Scope.Declares.texts {scope : Scope} (h : scope.Declares s.typeNames s.allMessages) :
    (∀ label ∈ scope.labels, label.isText = true) ∧ ∀ f ∈ scope.fields, f.type.isText = true := by
  simp only [Schema.isTextual, Bool.and_eq_true, List.all_eq_true] at hs
  cases h with
  | root _ labels fields =>
    rw [labels, fields]
    exact ⟨hs.1, by simp⟩
  | enumeration values _ labels fields =>
    rw [labels, fields]
    exact ⟨by simp, by simp⟩
  | message m hm _ labels fields =>
    rw [labels]
    refine ⟨(hs.2 m hm).1, ?_⟩
    intro f hf
    -- the types of fields are those of the declaration, up to defaults
    have hbare : f.bare ∈ m.fields.map Field.bare := fields ▸ List.mem_map_of_mem hf
    obtain ⟨f', hf', hsame⟩ := List.mem_map.1 hbare
    have htype : f'.bare.type = f.bare.type := congrArg Field.type hsame
    exact htype ▸ (hs.2 m hm).2 f' hf'

include hs hroot hdeclared in
theorem Place.Within.exists_name (hp : Within root p) : ∃ name, p.scope.name = .str name := by
  cases hp with
  | root => exact ⟨"", hroot⟩
  | @child p c hp hc =>
    have hlabel := ((hdeclared p hp).declares.texts hs).1 c.label (List.mem_map_of_mem hc)
    rw [(hdeclared _ (.child hp hc)).name p.scope p.outer rfl, Scope.qualify]
    split
    · exact ⟨_, rfl⟩
    · exact Value.exists_of_isText hlabel

include hs hroot hdeclared in
/-- The places of the tree of a schema of texts. -/
theorem Place.Within.legible (hp : Within root p) : p.Legible where
  name := hp.exists_name hs hroot hdeclared
  types := fun f hf => Value.exists_of_isText (((hdeclared p hp).declares.texts hs).2 f hf)
  references := by
    intro type q hq
    have hwithin := hp.resolve hq
    exact ⟨(hdeclared q hwithin).inner (outer_ne_nil_of_resolve hq), hwithin.exists_name hs hroot hdeclared⟩
  leaf := by
    intro values hkind
    cases (hdeclared p hp).declares with
    | root kind _ _ => cases hkind.symm.trans kind
    | message _ _ kind _ _ => cases hkind.symm.trans kind
    | enumeration _ _ labels fields => exact ⟨fields, List.map_eq_nil_iff.1 labels⟩

end

/-! ## Defaults -/

/-- Whether a literal denotes a value of the type that a keyword names. Byte strings and declared types have
no literals. -/
def Text.denotes (type literal : String) : Bool :=
  match Scalar.ofKeyword? type with
  | some .string | some .bool => true
  | some .double | some .float => (Text.float? literal).isSome
  | some .bytes | some .enum | none => false
  | some _ => (Text.integer? literal).isSome

def Place.meansEnumeration (p : Place) (type : String) : Bool :=
  match (p.resolve type).map Place.kind with
  | some (.enumeration _) => true
  | _ => false

/-- Whether a literal denotes no value of a type. Any symbol will do in an enumeration. -/
def Place.hasNoDefault (p : Place) (type literal : String) : Bool :=
  !p.meansEnumeration type && !Text.denotes type literal

/-- Whether a field declares a default that its type does not have. Only the older version has declared
defaults. -/
def Field.isMiscast (version : Version) (p : Place) (f : Field) : Bool :=
  match f.type with
  | .str type => version = .proto2 && (f.option? "default").any (p.hasNoDefault type)
  | _ => false

/-- Whether a field at a place declares a default that its type does not have. -/
def Place.hasMiscast (version : Version) (p : Place) : Bool :=
  p.scope.fields.any (·.isMiscast version p)

theorem castDefault_tests (field : Value) (type literal : String) :
    Tests .default (!Text.denotes type literal) (castDefault field type literal) := by
  unfold castDefault Text.denotes
  cases Scalar.ofKeyword? type with
  | none => rfl
  | some t =>
    cases t with
    | string | bool | bytes | enum => rfl
    | double | float => cases Text.float? literal <;> rfl
    | _ => cases Text.integer? literal <;> rfl

theorem Field.absentValue_tests (version : Version) (p : Place) (f : Field) (type : String) :
    Tests .default ((f.explicitDefault? version).any (p.hasNoDefault type))
      (f.absentValue version p type) := by
  unfold absentValue Place.hasNoDefault Place.meansEnumeration
  generalize (p.resolve type).map Place.kind = found
  cases f.explicitDefault? version with
  | none =>
    cases found with
    | none => exact .ok _
    | some kind => cases kind <;> exact .ok _
  | some literal =>
    cases found with
    | none => exact castDefault_tests f.name type literal
    | some kind =>
      cases kind with
      | enumeration values => exact .ok _
      | root | message => exact castDefault_tests f.name type literal

theorem Field.withDefault_tests (version : Version) (p : Place) {f : Field}
    (hf : ∃ type, f.type = .str type) : Tests .default (f.isMiscast version p) (f.withDefault version p) := by
  obtain ⟨type, htype⟩ := hf
  have htext : f.type.toText = .ok type := by rw [htype]; rfl
  have hmiscast : f.isMiscast version p = (f.explicitDefault? version).any (p.hasNoDefault type) := by
    unfold isMiscast explicitDefault?
    cases version <;> simp [htype]
  unfold withDefault
  rw [htext, hmiscast]
  exact (f.absentValue_tests version p type).map _

namespace Scope

mutual

theorem attach_tests (version : Version) : ∀ (s : Scope) (outer : List Scope),
    (∀ p ∈ s.places outer, p.Legible) →
    Tests .default ((s.places outer).any (Place.hasMiscast version)) (s.attach version outer)
  | ⟨label, name, isTop, kind, fields, children⟩, outer, h => by
    rw [places, List.forall_mem_cons] at h
    rw [attach, places, List.any_cons, Bool.or_comm]
    apply (attachAll_tests version children _ h.2).bind
    intro children' _
    apply Tests.map
    apply Tests.mapM
    intro f hf
    exact f.withDefault_tests version _ (h.1.types f hf)

theorem attachAll_tests (version : Version) : ∀ (ss outer : List Scope),
    (∀ p ∈ placesOf outer ss, p.Legible) →
    Tests .default ((placesOf outer ss).any (Place.hasMiscast version)) (attachAll version outer ss)
  | [], _, _ => by
    rw [attachAll, placesOf]
    exact .ok []
  | s :: rest, outer, h => by
    rw [placesOf, List.forall_mem_append] at h
    rw [attachAll, placesOf, List.any_append]
    apply (attach_tests version s outer h.1).bind
    intro s' _
    apply Tests.map
    exact attachAll_tests version rest outer h.2

end

end Scope

end ProtoScribe
