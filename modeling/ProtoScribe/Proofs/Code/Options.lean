import ProtoScribe.Code.Emit
import ProtoScribe.Proofs.Scope.Options

/-!
# Options and generated code

Generated code has options in it only where repeated fields are written: as a packed run or one by one.
So two schemas that differ in options have the same code if the same fields are packed
(`Schema.code_alter`), or neither has code, for the same reason.
-/

namespace ProtoScribe.Code

/-! ## Functions -/

theorem readValue_alter (g : Field → Field) (t : Target) : readValue (t.alter g) = readValue t := by
  cases t with
  | scalar t => rfl
  | enumeration q => rfl
  | message q =>
    show readValue (.message (q.alter g)) = _
    rw [readValue, readValue, Place.alter_name]

section

variable {g : Field → Field} (hg : Field.AltersOptions g)

include hg

/-- Reading a field does not depend on its options. -/
theorem readStatement_alter (p : Place) (f : Field) :
    readStatement (p.alter g) (g f) = readStatement p f := by
  have hpackable := Field.packable_alter hg f
  obtain ⟨options, hf⟩ := hg.options f
  have hname : (g f).name = f.name := by rw [hf]
  have hrepeated : (g f).repeated = f.repeated := by rw [hf]
  unfold readStatement
  rw [Place.target_alter hg]
  cases p.target f with
  | error e => rfl
  | ok t =>
    have hscalar : (t.alter g).scalar? = t.scalar? := Target.mapFields_scalar? _ t
    simp only [Except.map, bind, Except.bind, Field.packable_target, hpackable, hscalar, hname, hrepeated,
      readValue_alter]

theorem writeCall_alter (f : Field) (t : Target) (hpacked : (g f).isPacked t = f.isPacked t) (value : Expr) :
    writeCall (g f) (t.alter g) value = writeCall f t value := by
  have htag : (g f).tag = f.tag := by
    obtain ⟨options, hf⟩ := hg.options f
    rw [hf]
  have hsame : (g f).isPacked (t.alter g) = f.isPacked t := by rw [Field.isPacked_target, hpacked]
  cases t with
  | scalar t | enumeration q =>
    simp only [Target.alter, Target.mapFields] at hsame ⊢
    rw [writeCall, writeCall, htag, hsame]
  | message q =>
    show writeCall (g f) (.message (q.alter g)) value = _
    rw [writeCall, writeCall, htag, Place.alter_name]

theorem presence_alter (f : Field) (t : Target) : presence (g f) (t.alter g) = presence f t := by
  obtain ⟨options, hf⟩ := hg.options f
  rw [hf]
  cases t <;> rfl

theorem writeStatement_alter (p : Place) (f : Field)
    (hpacked : ∀ t, p.target f = .ok t → (g f).isPacked t = f.isPacked t) :
    writeStatement (p.alter g) (g f) = writeStatement p f := by
  obtain ⟨options, hf⟩ := hg.options f
  have hname : (g f).name = f.name := by rw [hf]
  have hrepeated : (g f).repeated = f.repeated := by rw [hf]
  unfold writeStatement entry entryOrNone
  rw [Place.target_alter hg]
  cases ht : p.target f with
  | error e => rfl
  | ok t =>
    have hpacked := hpacked t ht
    simp only [Except.map, bind, Except.bind, Field.isPacked_target, hpacked, hrepeated, hname,
      writeCall_alter hg f t hpacked, presence_alter hg]

theorem readChain_alter (p : Place) (fields : List Field) :
    readChain (p.alter g) (fields.map g) = readChain p fields := by
  induction fields with
  | nil => rfl
  | cons f rest ih =>
    have htag : (g f).tag = f.tag := by
      obtain ⟨options, hf⟩ := hg.options f
      rw [hf]
    rw [List.map_cons, readChain, readChain, ih, readStatement_alter hg, htag]

theorem initial_alter (fields : List Field) : initial (fields.map g) = initial fields := by
  unfold initial
  rw [List.filterMap_map]
  congr 1
  apply List.filterMap_congr
  intro f _
  obtain ⟨options, hf⟩ := hg.options f
  rw [Function.comp_apply, hf]

theorem readers_alter (p : Place) : readers (p.alter g) = readers p := by
  unfold readers readFunction
  rw [Place.alter_name, Place.alter_fields, readChain_alter hg, initial_alter hg]

/-- Writers depend on options by packing only. -/
theorem writers_alter {p : Place} (h : p.SamePacking g) : writers (p.alter g) = writers p := by
  have hbody : p.scope.fields.mapM (writeStatement (p.alter g) ∘ g) =
      p.scope.fields.mapM (writeStatement p) := by
    apply Outcome.mapM_congr
    intro f hf
    exact writeStatement_alter hg p f (h f hf)
  rw [writers, writers, Place.alter_fields, List.mapM_map, hbody]

theorem methods_alter (options : Options) {p : Place} (h : p.SamePacking g) :
    methods options (p.alter g) = methods options p := by
  rw [methods, methods, readers_alter hg, writers_alter hg h]

end

/-! ## Declarations -/

theorem shortName_alter (g : Field → Field) (s : Scope) : (s.alter g).shortName = s.shortName := by
  rw [Scope.shortName, Scope.shortName, Scope.alter, Scope.mapFields_name]

mutual

/-- Types that pack alike are declared alike. The induction follows the nesting of scopes. -/
theorem declare_alter {g : Field → Field} (hg : Field.AltersOptions g) (options : Options) :
    ∀ (s : Scope) (outer : List Scope), (∀ p ∈ s.places outer, p.SamePacking g) →
    declare options (outer.map (Scope.alter g)) (s.alter g) = declare options outer s
  | ⟨label, name, isTop, kind, fields, children⟩, outer, h => by
    rw [Scope.places, List.forall_mem_cons] at h
    have hmethods := methods_alter hg options h.1
    have hnested := declareNested_alter hg options children _ h.2
    have hshort := shortName_alter g ⟨label, name, isTop, kind, fields, children⟩
    rw [Place.alter_mk, Scope.alter_mk] at hmethods
    rw [List.map_cons, Scope.alter_mk] at hnested
    rw [Scope.alter_mk] at hshort ⊢
    cases kind with
    | enumeration values => rw [declare, declare, hshort]
    | root | message => rw [declare, declare, hmethods, hnested, hshort]

theorem declareNested_alter {g : Field → Field} (hg : Field.AltersOptions g) (options : Options) :
    ∀ (ss outer : List Scope), (∀ p ∈ Scope.placesOf outer ss, p.SamePacking g) →
    declareNested options (outer.map (Scope.alter g)) (ss.map (Scope.alter g)) =
      declareNested options outer ss
  | [], outer, _ => by rw [List.map_nil, declareNested, declareNested]
  | s :: rest, outer, h => by
    rw [Scope.placesOf, List.forall_mem_append] at h
    have hcheck : checkNested (s.alter g) = checkNested s := by
      rw [checkNested, checkNested, shortName_alter, Scope.alter, Scope.mapFields_name]
    rw [List.map_cons, declareNested, declareNested, hcheck, declare_alter hg options s outer h.1,
      declareNested_alter hg options rest outer h.2]

end

theorem declareTop_alter {g : Field → Field} (hg : Field.AltersOptions g) (options : Options)
    (exports : Option String) (ss outer : List Scope) (h : ∀ p ∈ Scope.placesOf outer ss, p.SamePacking g) :
    declareTop options exports (outer.map (Scope.alter g)) (ss.map (Scope.alter g)) =
      declareTop options exports outer ss := by
  induction ss with
  | nil => rfl
  | cons s rest ih =>
    rw [Scope.placesOf, List.forall_mem_append] at h
    have hname : (s.alter g).name = s.name := Scope.mapFields_name _ s
    have hcheck : checkTop exports (s.alter g) = checkTop exports s := by rw [checkTop, checkTop, hname]
    rw [List.map_cons, declareTop, declareTop, hcheck, declare_alter hg options s outer h.1, ih h.2, hname]

end ProtoScribe.Code

namespace ProtoScribe

/-- Schemas that differ in options have the same code if the same fields are packed. -/
theorem Schema.code_alter {g : Field → Field} (hg : Field.AltersOptions g) {s : Schema}
    (h : ∀ root, s.context = .ok root → ∀ p ∈ root.walk, p.SamePacking g) (options : Code.Options)
    (exports : Option String) : (s.alter g).code options exports = s.code options exports := by
  unfold code
  rw [context_alter hg]
  cases hroot : s.context with
  | error e => rfl
  | ok root =>
    have hwalk := h root hroot
    rw [Scope.walk] at hwalk
    obtain ⟨label, name, isTop, kind, fields, children⟩ := root
    rw [Scope.places, List.forall_mem_cons] at hwalk
    have htop := Code.declareTop_alter hg options exports children _ hwalk.2
    rw [List.map_cons, List.map_nil, Scope.alter_mk] at htop
    show Code.ofContext options exports (Scope.alter g ⟨label, name, isTop, kind, fields, children⟩) = _
    rw [Scope.alter_mk]
    exact htop

end ProtoScribe
