import ProtoScribe.Proofs.Code.Safety
import ProtoScribe.Proofs.Codec.Omission
import ProtoScribe.Proofs.Schema.Described
import ProtoScribe.Proofs.Scope.Defaults
import ProtoScribe.Proofs.Text.Numeral

/-!
# Defaults given as JSON values

A description gives a default as a JSON value. It is kept as the literal that would be written for it, and
the literal is read again when defaults are attached. For whole numbers, truth values and texts this gives
the value back (`Scalar.Native.eq_of_castDefault`): the numeral of an integer denotes it, and no truth value
is mistaken for a number.

So the default of such a field is the value that was given. The generated reader starts from it and the
generated writer leaves it out (`Code.native_defaults_survive`).
-/

namespace ProtoScribe

/-! ## Values and literals -/

namespace Scalar

/-- The types of whole numbers that have a keyword of their own. -/
def integers : List Scalar :=
  [.int32, .int64, .uint32, .uint64, .sint32, .sint64, .fixed32, .fixed64, .sfixed32, .sfixed64]

/-- The JSON values that are values of a type as they are. -/
inductive Native : Scalar → Value → Prop
  | int {t : Scalar} (n : Int) : t ∈ integers → Native t (.int n)
  | bool (b : Bool) : Native .bool (.bool b)
  | str (s : String) : Native .string (.str s)

variable {t : Scalar} {x : Value}

/-- The literal of such a value denotes it. -/
theorem Native.eq_of_castDefault (h : t.Native x) {field d : Value}
    (hd : castDefault field t.keyword (Description.literalOf x) = .ok d) : d = x := by
  unfold castDefault at hd
  rw [ofKeyword?_keyword] at hd
  cases h with
  | bool b =>
    cases hd
    cases b <;> rfl
  | str s =>
    cases hd
    rfl
  | int n hmem =>
    have hinteger : ∀ k, Text.integer? (toString n) = some k → k = n := by
      intro k hk
      rw [Text.integer?_toString] at hk
      split at hk <;> cases hk
      rfl
    have hliteral : Description.literalOf (.int n) = toString n := rfl
    rw [hliteral] at hd
    cases t with
    | double | float | bool | string | bytes | enum => exact absurd hmem (by decide)
    | _ =>
      simp only at hd
      split at hd
      · next k hk =>
        cases hd
        rw [hinteger k hk]
      · cases hd

theorem Native.ne_none (h : t.Native x) : x ≠ .none := by
  cases h <;> simp

/-- A native value equals itself, unlike one that is not a number. -/
theorem Native.equals_self (h : t.Native x) : x.equals x = true := by
  cases h <;> simp [Value.equals]

end Scalar

/-! ## Fields with a default -/

namespace Description

/-- The description of a field that is not repeated, has a built-in type and gives a default. -/
inductive GivesDefault : Value → Value → Scalar → Value → Prop
  | object {es : List (Value × Value)} {name x : Value} {t : Scalar} : get? es "name" = some name →
    get? es "type" = some (.str t.keyword) → isSet (get? es "repeated") = false →
    get? (members (get? es "options")) "default" = some x → GivesDefault (.dict es) name t x

variable {version : Version} {g name x : Value} {t : Scalar} {f f₀ : Field} {p : Place}

/-- What a description of a field says about it. -/
theorem GivesDefault.spelled (hg : g.isJson = true) (h : GivesDefault g name t x)
    (hspells : SpellsField version g f₀) :
    f₀.name = name ∧ f₀.type = .str t.keyword ∧ f₀.repeated = false ∧
      f₀.option? "default" = some (literalOf x) := by
  cases h with
  | @object es _ _ _ hname htype hrep hdefault =>
    cases hspells with
    | object hname' htype' _ _ hrep' hoptions =>
      refine ⟨Option.some.inj (hname'.symm.trans hname), Option.some.inj (htype'.symm.trans htype),
        hrep'.trans hrep, ?_⟩
      rw [Field.option?, hoptions, optionsOf, List.lookup_append,
        lookup_literals (membersAreJson_members hg "options"), hdefault]
      rfl

/-- The default that is attached where no declared type hides the built-in one: the value itself in the
older version, the zero of the type in the newer one. -/
theorem GivesDefault.attached (hg : g.isJson = true) (h : GivesDefault g name t x)
    (hspells : SpellsField version g f₀) (hf : f₀.withDefault version p = .ok f) :
    f.name = name ∧ f.type = .str t.keyword ∧ f.repeated = false ∧
      (p.resolve t.keyword = none → (version = .proto2 → t.Native x → f.default = x) ∧
        (version = .proto3 → f.default = t.zeroValue)) := by
  obtain ⟨hname, htype, hrep, hoption⟩ := h.spelled hg hspells
  obtain ⟨type, htext, hf⟩ := Outcome.bind_ok hf
  obtain ⟨d, hd, hf⟩ := Outcome.bind_ok hf
  cases hf
  rw [htype] at htext
  cases htext
  refine ⟨hname, htype, hrep, fun hfree => ⟨?_, ?_⟩⟩
  · rintro rfl hnative
    have hcast : castDefault f₀.name t.keyword (literalOf x) = .ok d := by
      simpa [Field.absentValue, hfree, Field.explicitDefault?, hoption] using hd
    simp [hrep, hnative.eq_of_castDefault hcast]
  · rintro rfl
    have hzero : t.zeroValue = d := by
      simpa [Field.absentValue, hfree, Field.explicitDefault?, Scalar.ofKeyword?_keyword] using hd
    simp [hrep, hzero]

end Description

/-! ## Generated code -/

namespace Code

open Run Description

section

variable {s : Schema} {options : Options} {m : Module} {p : Place} {path : String}
  (h : Compiled s options m p path) (hnames : s.fieldsApart = true)

include h

theorem Compiled.slots_of_writer (hw : options.noWrite = false) : ∃ slots, p.slots = .ok slots := by
  obtain ⟨root, -, hp, hlinked⟩ := h.linked
  obtain ⟨name, members, -, hclass, -⟩ := hlinked p hp h.isMessage
  obtain ⟨body, hbody, -⟩ := hclass.writer hw
  obtain ⟨slots, hslots, -⟩ := slots_of_writeStatements hbody
  exact ⟨slots, hslots⟩

include hnames

/-- The fields of a compiled message are told apart by their names. -/
theorem Compiled.slots_apart {slots : List Slot} (hslots : p.slots = .ok slots) : Slot.Apart slots := by
  obtain ⟨root, hroot, hp, -⟩ := h.linked
  exact Schema.slots_apart hroot hnames hp h.isMessage hslots

variable {f : Field} {t : Scalar} {x : Value}

omit h hnames in
/-- The slot of a field whose type is a keyword that no declared type hides. -/
theorem exists_scalar_slot {slots : List Slot} (hslots : p.slots = .ok slots) (hf : f ∈ p.scope.fields)
    (htype : f.type = .str t.keyword) (hfree : p.resolve t.keyword = none) :
    ∃ slot ∈ slots, slot.field = f ∧ slot.target = .scalar t := by
  obtain ⟨slot, hslot, hfield, htarget⟩ := Outcome.exists_right (Place.slots_ok hslots) hf
  have hkeyword : p.target f = .ok (.scalar t) := by
    rw [Place.target, htype]
    simp only [Value.toText, Outcome.ok_bind, hfree, Scalar.ofKeyword?_keyword]
    rfl
  rw [hkeyword] at htarget
  exact ⟨slot, hslot, hfield, (Except.ok.inj htarget).symm⟩

/-- A message that is read from no bytes has the default of a field. -/
theorem Compiled.read_default (hr : options.noRead = false) (hf : f ∈ p.scope.fields)
    (hrep : f.repeated = false) (hdefault : f.default ≠ .none) :
    ∃ message c, m.read path .none (.ofBytes []) = .ok (.dict message) c ∧
      Value.find? message f.name = some f.default := by
  obtain ⟨slots, hslots⟩ := h.exists_slots hr
  have hapart := h.slots_apart hnames hslots
  obtain ⟨slot, hslot, rfl, -⟩ := Outcome.exists_right (Place.slots_ok hslots) hf
  refine ⟨_, _, by rw [h.read_eq hr, Codec.read_nothing hslots], ?_⟩
  rw [Codec.initial_eq hapart, hapart.find?_filterMap (fun s _ => s.initial?_key) hslot]
  simp [Slot.initial?, hrep, hdefault]

/-- A message that has the default of a field is written as if it had not. -/
theorem Compiled.write_default (hw : options.noWrite = false) (hf : f ∈ p.scope.fields)
    (hrep : f.repeated = false) (htype : f.type = .str t.keyword) (hfree : p.resolve t.keyword = none)
    (hnative : t.Native f.default) :
    m.write path (.dict [(f.name, f.default)]) = pure () ∧
    ∀ a b, Value.find? a f.name = some f.default → Value.find? b f.name = none →
      Value.AgreeApart f.name a b → m.write path (.dict a) = m.write path (.dict b) := by
  obtain ⟨slots, hslots⟩ := h.slots_of_writer hw
  have hapart := h.slots_apart hnames hslots
  obtain ⟨slot, hslot, rfl, htarget⟩ := exists_scalar_slot hslots hf htype hfree
  have habsent := Codec.isPresent_default (by rw [Slot.isMessage, htarget]; rfl) hnative.ne_none
    hnative.equals_self
  have hsame : ∀ a b, Value.find? a slot.field.name = some slot.field.default →
      Value.find? b slot.field.name = none → Value.AgreeApart slot.field.name a b →
      m.write path (.dict a) = m.write path (.dict b) := by
    intro a b ha hb hab
    rw [h.write_eq hw, h.write_eq hw]
    exact Codec.write_of_absent hslots hapart hslot hrep (by rw [Slot.held, ha]; exact habsent) hb hab
  refine ⟨?_, hsame⟩
  rw [hsame _ [] (by simp [Value.find?]) rfl, h.write_eq hw, Codec.write_empty hslots]
  intro other hother
  rw [Value.sameKey_comm] at hother
  simp [Value.find?, hother]

end

variable {s : Schema} {options : Options} {m : Module} {path : String} {es ds : List (Value × Value)}

/-- Every message that is described is compiled. -/
theorem exists_compiled_of_describes (hspells : SpellsSchema (.dict es) s) (hnamed : s.wellNamed = true)
    (hm : Module.ofSchema s options = .ok m) (hds : Describes es (Text.components path) ds) :
    ∃ p p₀, Compiled s options m p path ∧ p₀.bare = p.bare ∧
      ∀ g ∈ listed (get? ds "fields"), ∃ f ∈ p.scope.fields, ∃ f₀,
        SpellsField s.version g f₀ ∧ f₀.withDefault s.version p₀ = .ok f := by
  have hs := Schema.named_of_wellNamed hnamed
  obtain ⟨decls, hdecls, -⟩ := Outcome.bind_ok hm
  obtain ⟨root, hroot, -⟩ := Outcome.bind_ok hdecls
  have hne : Text.components path ≠ [] := Text.components_ne_nil path
  obtain ⟨p, p₀, hp, hkind, hbare, hfields⟩ := Schema.exists_described hspells hs hroot hds hne
  obtain ⟨name, hname, -, hcomponents⟩ := (Schema.spelled_of_context hroot hs).components_name hp hne
  cases Text.components_injective hcomponents
  exact ⟨p, p₀, ⟨hnamed, hm, ⟨root, hroot, Scope.mem_walk_iff.2 hp.within⟩, hkind, hname⟩, hbare, hfields⟩

/-- A default that is given as a JSON value survives the way through its literal. Where no declared type
hides the built-in one, the default of the field is that value; a message read from no bytes has it, and a
message that has it is written as if it had not. The newer version goes by the zero of the type, whatever
the value. -/
theorem native_defaults_survive (hjson : (Value.dict es).isJson = true)
    (hload : Schema.ofValue (.dict es) = .ok s) (hnamed : s.wellNamed = true)
    (hnames : s.fieldsApart = true) (hm : Module.ofSchema s options = .ok m)
    (hds : Describes es (Text.components path) ds) {g name x : Value} {t : Scalar}
    (hg : g ∈ listed (get? ds "fields")) (hgives : GivesDefault g name t x) :
    ∃ p f, Compiled s options m p path ∧ f ∈ p.scope.fields ∧ f.name = name ∧ f.type = .str t.keyword ∧
      (p.resolve t.keyword = none →
        (s.version = .proto2 → t.Native x → f.default = x ∧
          (options.noRead = false → ∃ message c, m.read path .none (.ofBytes []) = .ok (.dict message) c ∧
            Value.find? message name = some x) ∧
          (options.noWrite = false → m.write path (.dict [(name, x)]) = pure () ∧
            ∀ a b, Value.find? a name = some x → Value.find? b name = none → Value.AgreeApart name a b →
              m.write path (.dict a) = m.write path (.dict b))) ∧
        (s.version = .proto3 → f.default = t.zeroValue)) := by
  have hspells := (Schema.isSchema_of_ofValue hjson hload).2
  obtain ⟨p, p₀, h, hbare, hfields⟩ := exists_compiled_of_describes hspells hnamed hm hds
  obtain ⟨f, hf, f₀, hspellsField, hdefault⟩ := hfields g hg
  obtain ⟨rfl, htype, hrep, hattached⟩ :=
    hgives.attached (isJson_of_listed (hds.isJson hjson) hg) hspellsField hdefault
  refine ⟨p, f, h, hf, rfl, htype, fun hfree => ?_⟩
  -- the default was found in the tree before defaults were attached, where types mean the same
  have hfree₀ : p₀.resolve t.keyword = none := by
    have hkind := Place.resolve_kind hbare t.keyword
    rw [hfree] at hkind
    exact Option.map_eq_none_iff.1 hkind
  obtain ⟨hvalue, hzero⟩ := hattached hfree₀
  refine ⟨fun hversion hnative => ?_, hzero⟩
  obtain rfl := hvalue hversion hnative
  exact ⟨rfl, fun hr => h.read_default hnames hr hf hrep hnative.ne_none,
    fun hw => h.write_default hnames hw hf hrep htype hfree hnative⟩

/-- The description of a dive: the stages of a dive are described inside it, and have a depth with a
default. -/
def diveDescription : List (Value × Value) :=
  let depth := .dict [(.str "name", .str "depth"), (.str "type", .str "sint64"), (.str "tag", .int 1),
    (.str "options", .dict [(.str "default", .int (-40))])]
  let stage := .dict [(.str "name", .str "Stage"), (.str "fields", .list [depth])]
  [(.str "syntax", .int 2),
    (.str "messages", .list [.dict [(.str "name", .str "Dive"), (.str "messages", .list [stage])]])]

def diveSchema : Schema :=
  let depth : Field :=
    { name := .str "depth", type := .str "sint64", tag := 1, options := [("default", "-40")] }
  { version := .proto2, package := .none, enums := [],
    messages := [{ name := .str "Dive", fields := [], enums := [],
                   messages := [{ name := .str "Stage", fields := [depth], enums := [], messages := [] }] }] }

theorem dive_defaults_survive :
    ∃ m p f, Schema.ofValue (.dict diveDescription) = .ok diveSchema ∧
      Compiled diveSchema {} m p "Dive.Stage" ∧ f ∈ p.scope.fields ∧ f.name = .str "depth" ∧
      f.default = .int (-40) ∧
      (∃ message c, m.read "Dive.Stage" .none (.ofBytes []) = .ok (.dict message) c ∧
        Value.find? message (.str "depth") = some (.int (-40))) ∧
      m.write "Dive.Stage" (.dict [(.str "depth", .int (-40))]) = pure () := by
  have hload : Schema.ofValue (.dict diveDescription) = .ok diveSchema := rfl
  obtain ⟨m, _, hcompiled, -⟩ : ∃ m p, Compiled diveSchema {} m p "Dive.Stage" ∧ true :=
    exists_compiled (fun _ => true) (by decide +kernel) (by decide +kernel) (by decide +kernel)
  have hstage : Describes diveDescription (Text.components "Dive.Stage") _ :=
    .inside (.head _) rfl (.inside (.head _) rfl (.here _))
  obtain ⟨p, f, h, hf, hname, -, hdefault⟩ := native_defaults_survive (t := .sint64) rfl hload hcompiled.named
    (by decide +kernel) hcompiled.loaded hstage (.head _) (.object rfl rfl rfl rfl)
  obtain ⟨root, hroot, hp, -⟩ := h.linked
  have hfree := Schema.resolve_keyword hroot (by decide +kernel) hp (Scalar.ofKeyword?_keyword .sint64)
  obtain ⟨hvalue, hread, hwrite⟩ := (hdefault hfree).1 rfl (.int (-40) (by decide))
  exact ⟨m, p, f, hload, h, hf, hname, hvalue, hread rfl, (hwrite rfl).1⟩

end Code

end ProtoScribe
