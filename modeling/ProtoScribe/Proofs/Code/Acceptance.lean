import ProtoScribe.Code.Emit
import ProtoScribe.Proofs.Scope.Acceptance

/-!
# When a schema has code

`Scope.verdict` says of a scope tree why there is no code for it, in terms of the tree alone: a field has a
default that its type does not have; or else the type of a field is missing, a type at the top has a name
that generated code relies on, or a type inside a message has the name of a generated function.
`Schema.code_verdict` proves that this is how emitting code fails, and that it succeeds otherwise, for all
schemas whose names and types are texts.

The checks are made by many functions and in an order of their own. Each function is shown to test a part
of the tree (`Outcome.Tests`), and the parts add up.
-/

namespace ProtoScribe

open Outcome (Tests failure)

/-! ## What is wrong with a tree -/

/-- Whether the type of a field is neither declared nor built in. -/
def Field.isUnresolved (p : Place) (f : Field) : Bool :=
  match f.type with
  | .str type => (p.resolve type).isNone && (Scalar.ofKeyword? type).isNone
  | _ => false

/-- Whether a field at a place has a type that is neither declared nor built in. -/
def Place.hasUnresolved (p : Place) : Bool := p.scope.fields.any (·.isUnresolved p)

/-- Whether the part of the name of a type after its last dot is the name of a generated function. -/
def Scope.isMethodNamed (s : Scope) : Bool :=
  match s.name with
  | .str name => Text.lastComponent name ∈ Code.methodNames
  | _ => false

def Place.hasMethodNamed (p : Place) : Bool :=
  p.scope.isMessage && p.scope.children.any Scope.isMethodNamed

/-- Whether a type is named like something that generated code relies on. -/
def Scope.isReserved (exports : Option String) (s : Scope) : Bool :=
  match s.name with
  | .str name => name ∈ Code.reservedNames exports
  | _ => false

/-- Whether something about a place but the defaults of its fields is wrong. -/
def Place.isRejected (p : Place) : Bool := p.hasUnresolved || p.hasMethodNamed

/-- The kind of fault that a tree is refused with, given the version of its schema and the name of the
object that types are exported on. -/
def Scope.verdict (version : Version) (exports : Option String) (root : Scope) : Option Fault.Kind :=
  if root.walk.any (Place.hasMiscast version) then some .default
  else if root.children.any (Scope.isReserved exports) || root.walk.any Place.isRejected then some .type
  else none

namespace Code

/-! ## Functions -/

section

variable {p : Place} (h : p.Legible) {f : Field} (hf : f ∈ p.scope.fields)

include h hf

/-- The meaning of a type is missing if the type is neither declared nor built in, and only then: it is
never the root. -/
theorem target_tests : Tests .type (f.isUnresolved p) (p.target f) := by
  obtain ⟨type, htype⟩ := h.types f hf
  have htext : (Value.str type).toText = .ok type := rfl
  unfold Place.target
  simp only [Field.isUnresolved, htype, htext, bind, Except.bind]
  cases hq : p.resolve type with
  | none => cases Scalar.ofKeyword? type <;> rfl
  | some q =>
    have hkind := (h.references type q hq).1
    cases hfound : q.kind with
    | root => exact absurd hfound hkind
    | enumeration values =>
      simp only [hfound]
      exact .ok _
    | message =>
      simp only [hfound]
      exact .ok _

omit hf in
/-- What a type means has a name that can be referred to. -/
theorem exists_name_of_target {q : Place} (ht : p.target f = .ok (.message q)) :
    ∃ name, q.scope.name.toText = .ok name := by
  obtain ⟨type, -, ht⟩ := Outcome.bind_ok ht
  split at ht
  · next r hr =>
    obtain ⟨name, hname⟩ := (h.references type r hr).2
    split at ht <;> cases ht
    exact ⟨name, by rw [hname]; rfl⟩
  · split at ht <;> cases ht

/-- Reading a field is refused for a type that does not resolve, and for nothing else. -/
theorem readStatement_tests : Tests .type (f.isUnresolved p) (readStatement p f) := by
  refine ((target_tests h hf).bind fun t ht => ?_).congr (Bool.or_false _)
  split
  · exact .ok _
  · apply Tests.map
    cases t with
    | scalar t => exact .ok _
    | enumeration q => exact .ok _
    | message q =>
      obtain ⟨name, hname⟩ := exists_name_of_target h ht
      rw [readValue, hname]
      exact .ok _

omit hf in
/-- Once the type of a field resolves, nothing is left to refuse. -/
theorem writeCall_tests {t : Target} (ht : p.target f = .ok t) (value : Expr) :
    Tests .type false (writeCall f t value) := by
  cases t with
  | scalar t => exact .ok _
  | enumeration q => exact .ok _
  | message q =>
    obtain ⟨name, hname⟩ := exists_name_of_target h ht
    rw [writeCall, hname]
    exact .ok _

theorem writeStatement_tests : Tests .type (f.isUnresolved p) (writeStatement p f) := by
  refine ((target_tests h hf).bind fun t ht => ?_).congr (Bool.or_false _)
  split
  · split <;> exact (writeCall_tests h ht _).map _
  · exact (writeCall_tests h ht _).map _

end

section

variable {p : Place} (h : p.Legible)

include h

/-- A chain is refused for the first field that does not resolve. -/
theorem readChain_tests {fields : List Field} (hfields : ∀ f ∈ fields, f ∈ p.scope.fields) :
    Tests .type (fields.any (·.isUnresolved p)) (readChain p fields) := by
  induction fields with
  | nil => exact .ok _
  | cons f rest ih =>
    rw [List.forall_mem_cons] at hfields
    rw [readChain, List.any_cons, Bool.or_comm]
    apply (ih hfields.2).bind
    intro otherwise _
    exact (readStatement_tests h hfields.1).map _

theorem readers_tests : Tests .type p.hasUnresolved (readers p) := by
  obtain ⟨name, hname⟩ := h.name
  rw [readers, hname]
  exact (readChain_tests h fun _ hf => hf).map _

theorem writers_tests : Tests .type p.hasUnresolved (writers p) :=
  (Tests.mapM fun _ hf => writeStatement_tests h hf).map _

/-- Whichever functions are left out, the same fields are looked at by those that are not. -/
theorem methods_tests {options : Options} (hoptions : (options.noRead && options.noWrite) = false) :
    Tests .type p.hasUnresolved (methods options p) := by
  have hread : Tests .type (!options.noRead && p.hasUnresolved) (omitIf options.noRead (readers p)) := by
    cases options.noRead with
    | true => exact .ok _
    | false => exact readers_tests h
  have hwrite : Tests .type (!options.noWrite && p.hasUnresolved) (omitIf options.noWrite (writers p)) := by
    cases options.noWrite with
    | true => exact .ok _
    | false => exact writers_tests h
  refine (hread.bind fun reading _ => hwrite.map _).congr ?_
  revert hoptions
  cases options.noRead <;> cases options.noWrite <;> simp

/-- The name of a type is a text, so that its last part can be told. -/
theorem exists_shortName : ∃ name, p.scope.shortName = .ok name := by
  obtain ⟨name, hname⟩ := h.name
  rw [Scope.shortName, hname]
  exact ⟨_, rfl⟩

theorem checkNested_tests : Tests .type p.scope.isMethodNamed (checkNested p.scope) := by
  obtain ⟨name, hname⟩ := h.name
  have hshort : p.scope.shortName = .ok (Text.lastComponent name) := by
    rw [Scope.shortName, hname]
    rfl
  unfold checkNested Scope.isMethodNamed
  rw [hshort, hname]
  show Tests .type (decide (Text.lastComponent name ∈ methodNames))
    (if Text.lastComponent name ∈ methodNames then throw (.methodName (.str name)) else pure ())
  split
  · next hmem => rw [decide_eq_true hmem]; rfl
  · next hmem => rw [decide_eq_false hmem]; rfl

theorem checkTop_tests (exports : Option String) :
    Tests .type (p.scope.isReserved exports) (checkTop exports p.scope) := by
  obtain ⟨name, hname⟩ := h.name
  have hany : (reservedNames exports).any (p.scope.name = .str ·) = p.scope.isReserved exports := by
    simp only [Scope.isReserved, hname]
    rw [Bool.eq_iff_iff, List.any_eq_true, decide_eq_true_iff]
    constructor
    · rintro ⟨other, hmem, heq⟩
      cases of_decide_eq_true heq
      exact hmem
    · intro hmem
      exact ⟨name, hmem, decide_eq_true rfl⟩
  unfold checkTop
  rw [hany]
  cases p.scope.isReserved exports <;> rfl

end

/-! ## Declarations -/

mutual

/-- The induction follows the nesting of scopes; the types inside are checked before they are declared.
-/
theorem declare_tests {options : Options} (hoptions : (options.noRead && options.noWrite) = false) :
    ∀ (s : Scope) (outer : List Scope),
    (∀ p ∈ s.places outer, p.Legible ∧ p.kind ≠ .root) →
    Tests .type ((s.places outer).any Place.isRejected) (declare options outer s)
  | ⟨label, name, isTop, kind, fields, children⟩, outer, h => by
    rw [Scope.places, List.forall_mem_cons] at h
    obtain ⟨⟨hlegible, hkind⟩, hbelow⟩ := h
    obtain ⟨short, hshort⟩ := exists_shortName hlegible
    rw [Scope.places, List.any_cons]
    cases kind with
    | root => exact absurd rfl hkind
    | enumeration values =>
      -- an enumeration has neither fields nor types inside
      obtain ⟨rfl, rfl⟩ : fields = [] ∧ children = [] := hlegible.leaf values rfl
      rw [declare, Scope.placesOf]
      simp only [hshort]
      exact .ok _
    | message =>
      rw [declare]
      simp only [hshort]
      refine Tests.congr ((methods_tests hlegible hoptions).bind fun own _ =>
        (declareNested_tests hoptions children _ hbelow).map _) ?_
      simp only [Place.isRejected, Place.hasMethodNamed, Scope.isMessage, decide_true, Bool.true_and,
        Bool.or_assoc]

theorem declareNested_tests {options : Options} (hoptions : (options.noRead && options.noWrite) = false) :
    ∀ (ss outer : List Scope),
    (∀ p ∈ Scope.placesOf outer ss, p.Legible ∧ p.kind ≠ .root) →
    Tests .type (ss.any Scope.isMethodNamed || (Scope.placesOf outer ss).any Place.isRejected)
      (declareNested options outer ss)
  | [], outer, _ => by
    rw [declareNested, Scope.placesOf]
    exact .ok []
  | s :: rest, outer, h => by
    rw [Scope.placesOf, List.forall_mem_append] at h
    have hs := (h.1 ⟨s, outer⟩ (Scope.mem_places_self s outer)).1
    rw [declareNested, Scope.placesOf, List.any_append, List.any_cons]
    refine Tests.congr ((checkNested_tests hs).bind fun _ _ => (declare_tests hoptions s outer h.1).bind fun d _ =>
      (declareNested_tests hoptions rest outer h.2).map _) ?_
    simp only [Bool.or_assoc, Bool.or_left_comm, Bool.or_comm]

end

/-- At the top, other names are reserved than inside a type. -/
theorem declareTop_tests {options : Options} (hoptions : (options.noRead && options.noWrite) = false)
    (exports : Option String) {ss outer : List Scope}
    (h : ∀ p ∈ Scope.placesOf outer ss, p.Legible ∧ p.kind ≠ .root) :
    Tests .type (ss.any (Scope.isReserved exports) || (Scope.placesOf outer ss).any Place.isRejected)
      (declareTop options exports outer ss) := by
  induction ss with
  | nil =>
    rw [declareTop, Scope.placesOf]
    exact .ok []
  | cons s rest ih =>
    rw [Scope.placesOf, List.forall_mem_append] at h
    have hs := (h.1 ⟨s, outer⟩ (Scope.mem_places_self s outer)).1
    obtain ⟨name, hname⟩ := hs.name
    have htext : s.name.toText = .ok name := by rw [hname]; rfl
    have htests : Tests .type (s.isReserved exports || ((s.places outer).any Place.isRejected ||
        (rest.any (Scope.isReserved exports) || (Scope.placesOf outer rest).any Place.isRejected)))
        (declareTop options exports outer (s :: rest)) := by
      rw [declareTop]
      apply (checkTop_tests hs exports).bind
      intro _ _
      apply (declare_tests hoptions s outer h.1).bind
      intro d _
      cases exports with
      | none => exact (ih h.2).map _
      | some object =>
        simp only [htext]
        exact (ih h.2).map _
    rw [Scope.placesOf, List.any_append, List.any_cons]
    exact htests.congr (by simp only [Bool.or_assoc, Bool.or_left_comm, Bool.or_comm])

end Code

/-! ## Trees with and without defaults -/

theorem Field.isUnresolved_bare (p : Place) (f : Field) : f.bare.isUnresolved p.bare = f.isUnresolved p := by
  unfold isUnresolved
  simp only [Place.resolve_bare, Option.isNone_map]
  rfl

theorem Scope.isMethodNamed_bare (s : Scope) : s.bare.isMethodNamed = s.isMethodNamed := by
  rw [isMethodNamed, isMethodNamed, bare_name]

/-- Whether a scope is refused does not depend on defaults. -/
theorem Place.isRejected_bare (p : Place) : p.bare.isRejected = p.isRejected := by
  have hfields : p.bare.scope.fields = p.scope.fields.map Field.bare := Scope.bare_fields p.scope
  have hchildren : p.bare.scope.children = p.scope.children.map Scope.bare := Scope.bare_children p.scope
  have hkind : p.bare.scope.kind = p.scope.kind := Scope.bare_kind p.scope
  simp only [isRejected, hasUnresolved, hasMethodNamed, Scope.isMessage, hfields, hchildren, hkind,
    List.any_map, Function.comp_def, Field.isUnresolved_bare, Scope.isMethodNamed_bare]

theorem Scope.walk_bare (root : Scope) : root.bare.walk = root.walk.map Place.bare := by
  rw [Place.bare_eq_mapFields, bare_eq_mapFields]
  exact places_alter Field.bare root []

/-- What else is wrong with a tree can be told without looking at defaults. -/
theorem Scope.any_isRejected_of_bare {root root' : Scope} (h : root.bare = root'.bare) :
    root.walk.any Place.isRejected = root'.walk.any Place.isRejected := by
  have hbare : ∀ r : Scope, r.bare.walk.any Place.isRejected = r.walk.any Place.isRejected := by
    intro r
    rw [walk_bare, List.any_map]
    congr 1
    funext p
    exact p.isRejected_bare
  rw [← hbare root, h, hbare root']

/-- Nor does it whether a name is reserved. -/
theorem Scope.any_isReserved_of_bare (exports : Option String) {root root' : Scope}
    (h : root.bare = root'.bare) :
    root.children.any (isReserved exports) = root'.children.any (isReserved exports) := by
  have hbare : ∀ r : Scope, r.bare.children.any (isReserved exports) =
      r.children.any (isReserved exports) := by
    intro r
    rw [bare_children, List.any_map]
    congr 1
    funext s
    simp only [Function.comp_apply, isReserved, bare_name]
  rw [← hbare root, h, hbare root']

/-! ## Schemas -/

namespace Schema

open Place (Within)

variable {s : Schema} {root : Scope}

theorem isKey_of_isTextual (hs : s.isTextual = true) :
    (∀ v ∈ s.typeNames, v.isKey = true) ∧ ∀ m ∈ s.allMessages, ∀ v ∈ m.typeNames, v.isKey = true := by
  have hkey : ∀ v : Value, v.isText = true → v.isKey = true := by
    intro v hv
    obtain ⟨text, rfl⟩ := Value.exists_of_isText hv
    rfl
  simp only [isTextual, Bool.and_eq_true, List.all_eq_true] at hs
  exact ⟨fun v hv => hkey v (hs.1 v hv), fun m hm v hv => hkey v ((hs.2 m hm).1 v hv)⟩

/-- Names that are texts make every scope legible. -/
theorem ofSchema_legible (hs : s.isTextual = true) (h : Scope.ofSchema s = .ok root) :
    ∀ p ∈ root.walk, p.Legible := by
  have hname : root.name = .str "" := by
    obtain ⟨enums, -, h⟩ := Outcome.bind_ok h
    obtain ⟨messages, -, h⟩ := Outcome.bind_ok h
    cases h
    rfl
  intro p hp
  apply (Scope.mem_walk_iff.1 hp).legible hs hname
  intro q hq
  exact Scope.ofSchema_declared h q (Scope.mem_walk_iff.2 hq)

theorem context_legible (hs : s.isTextual = true) (h : s.context = .ok root) :
    ∀ p ∈ root.walk, p.Legible := by
  intro p hp
  exact (Scope.mem_walk_iff.1 hp).legible hs (context_root h).1 fun q hq => context_declared h hq

/-- Code for a tree is refused for what is wrong with it. The root itself has neither fields nor a class. -/
theorem ofContext_tests (hs : s.isTextual = true) (h : s.context = .ok root) {options : Code.Options}
    (hoptions : (options.noRead && options.noWrite) = false) (exports : Option String) :
    Tests .type (root.children.any (Scope.isReserved exports) || root.walk.any Place.isRejected)
      (Code.ofContext options exports root) := by
  have hwalk : root.walk = ⟨root, []⟩ :: Scope.placesOf [root] root.children := by
    cases root
    rfl
  have hkind := (context_root h).2
  have hfields : root.fields = [] := by
    cases (context_declared h .root).declares with
    | root _ _ fields => exact fields
    | enumeration _ _ _ fields => exact fields
    | message _ _ kind _ _ => cases hkind.symm.trans kind
  have hroot : Place.isRejected ⟨root, []⟩ = false := by
    simp [Place.isRejected, Place.hasUnresolved, Place.hasMethodNamed, Scope.isMessage, hfields, hkind]
  rw [hwalk, List.any_cons, hroot, Bool.false_or]
  apply Code.declareTop_tests hoptions exports
  intro p hp
  have hmem : p ∈ root.walk := hwalk ▸ List.mem_cons_of_mem _ hp
  refine ⟨context_legible hs h p hmem, (context_declared h (Scope.mem_walk_iff.1 hmem)).inner ?_⟩
  exact Scope.outer_ne_nil_of_mem_placesOf root.children (by simp) p hp

/-- A schema of texts has code, or it is refused for what is wrong with its tree: for a default that the
type of a field does not have, wherever it is, or else for a type that is missing or a name that is taken.
This does not depend on which functions are left out. What a reference means is a type. -/
theorem code_verdict (hs : s.isTextual = true) :
    ∃ root, Scope.ofSchema s = .ok root ∧
      (∀ options exports, (options.noRead && options.noWrite) = false →
        failure (s.code options exports) = root.verdict s.version exports) ∧
      ∀ root', s.context = .ok root' → ∀ p ∈ root'.walk, ∀ reference q,
        p.resolve reference = some q → q.kind ≠ .root := by
  obtain ⟨htop, hnested⟩ := isKey_of_isTextual hs
  obtain ⟨root, hroot⟩ := Scope.exists_ofSchema htop hnested
  have hcontext : s.context = root.attach s.version [] := by
    rw [context, hroot]
    rfl
  have hdefaults := Scope.attach_tests s.version root [] (ofSchema_legible hs hroot)
  refine ⟨root, hroot, ?_, ?_⟩
  · intro options exports hoptions
    rw [code, hcontext]
    apply hdefaults.failure_bind
    intro root' hattach
    have hbare := Scope.attach_bare root hattach
    have htypes := ofContext_tests hs (hcontext.trans hattach) hoptions exports
    rwa [Scope.any_isReserved_of_bare exports hbare, Scope.any_isRejected_of_bare hbare] at htypes
  · intro root' hroot' p hp reference q hq
    exact ((context_legible hs hroot' p hp).references reference q hq).1

/-- A message with a type whose name ends like that of a generated function behind a dot. The default is no
symbol of its enumeration, which does not matter. -/
def disguisedSchema : Schema where
  version := .proto2
  package := .none
  enums := [⟨.str "Level", [("LOW", 1)]⟩]
  messages := [{
    name := .str "Outer"
    fields := [{ name := .str "level", type := .str "Level", tag := 1, options := [("default", "HIGH")] }]
    enums := []
    messages := [{
      name := .str "Inner.read"
      fields := [{ name := .str "outer", type := .str ".Outer", tag := 1, repeated := true }]
      enums := []
      messages := [] }] }]

/-- Whether the tree of a schema gets some verdict. -/
def judges (s : Schema) (exports : Option String) (verdict : Option Fault.Kind) : Bool :=
  match Scope.ofSchema s with
  | .ok root => root.verdict s.version exports = verdict
  | .error _ => false

theorem disguised_method_is_refused : disguisedSchema.isTextual = true ∧
    failure (disguisedSchema.code {} none) = some .type ∧
    failure (disguisedSchema.code { noRead := true } (some "api")) = some .type := by
  have htext : disguisedSchema.isTextual = true := by decide +kernel
  obtain ⟨root, hroot, hcode, -⟩ := code_verdict htext
  have hverdict : ∀ exports, judges disguisedSchema exports (some .type) = true →
      root.verdict disguisedSchema.version exports = some .type := by
    intro exports h
    rw [judges, hroot] at h
    exact of_decide_eq_true h
  refine ⟨htext, ?_, ?_⟩
  · rw [hcode {} none rfl]
    exact hverdict none (by decide +kernel)
  · rw [hcode { noRead := true } (some "api") rfl]
    exact hverdict (some "api") (by decide +kernel)

end Schema

end ProtoScribe
