import ProtoScribe.Proofs.Scope.Tree

/-!
# Options of fields

Options are kept as they were written, and of two schemas one may spell out an option that the other
leaves to its default. `Schema.alter` changes the options of the fields of a schema, and
`Field.AltersOptions` says which changes leave defaults alone. Such a change commutes with all that is
made of a schema up to its tree (`Schema.context_alter`), and with what types mean
(`Place.target_alter`): also faults stay the same.

`Schema.views` is what can be told of a tree without looking at the options as they are written. Two
schemas that differ in options have the same views exactly if the same fields are packed
(`Schema.views_alter_iff`).
-/

namespace ProtoScribe

/-! ## Changing fields -/

/-- A change of options that other things about a field do not depend on. -/
structure Field.AltersOptions (g : Field → Field) : Prop where
  /-- Nothing but options changes, -/
  options : ∀ f, ∃ options, g f = { f with options }
  /-- the literal of the default stays, -/
  literal : ∀ f, (g f).option? "default" = f.option? "default"
  /-- and the value of the default plays no part. -/
  default : ∀ f v, g { f with default := v } = { g f with default := v }

mutual

/-- The message with changed fields, also in the messages inside it. -/
def Message.alter (g : Field → Field) : Message → Message
  | ⟨name, fields, enums, messages⟩ => ⟨name, fields.map g, enums, Message.alterAll g messages⟩

def Message.alterAll (g : Field → Field) : List Message → List Message
  | [] => []
  | m :: rest => m.alter g :: Message.alterAll g rest

end

def Schema.alter (g : Field → Field) (s : Schema) : Schema :=
  { s with messages := Message.alterAll g s.messages }

def Scope.alter (g : Field → Field) : Scope → Scope := Scope.mapFields fun _ => List.map g

def Place.alter (g : Field → Field) : Place → Place := Place.mapFields fun _ => List.map g

def Target.alter (g : Field → Field) : Target → Target := Target.mapFields fun _ => List.map g

section

variable (g : Field → Field)

@[simp]
theorem Place.alter_name (p : Place) : (p.alter g).scope.name = p.scope.name :=
  Scope.mapFields_name _ p.scope

@[simp]
theorem Place.alter_fields (p : Place) : (p.alter g).scope.fields = p.scope.fields.map g :=
  Scope.mapFields_fields _ p.scope

@[simp]
theorem Field.packable_target (f : Field) (t : Target) : f.packable (t.alter g) = f.packable t := by
  cases t <;> rfl

@[simp]
theorem Field.isPacked_target (f : Field) (t : Target) : f.isPacked (t.alter g) = f.isPacked t := by
  rw [isPacked, isPacked, packable_target]

theorem Scope.alter_mk (label name : Value) (isTop : Bool) (kind : Kind) (fields : List Field)
    (children : List Scope) : Scope.alter g ⟨label, name, isTop, kind, fields, children⟩ =
      ⟨label, name, isTop, kind, fields.map g, children.map (Scope.alter g)⟩ := by
  rw [alter, mapFields, mapFieldsAll_eq_map]

theorem Place.alter_mk (s : Scope) (outer : List Scope) :
    Place.alter g ⟨s, outer⟩ = ⟨s.alter g, outer.map (Scope.alter g)⟩ := rfl

end

/-! ## Trees of changed schemas -/

namespace Scope

variable (g : Field → Field)

theorem alter_of_ofEnum {outer : Value} {e : Enumeration} {s : Scope} (h : ofEnum outer e = .ok s) :
    s.alter g = s := by
  unfold ofEnum at h
  split at h <;> cases h
  rfl

theorem alter_of_ofEnums {outer : Value} {es : List Enumeration} {ss : List Scope}
    (h : es.mapM (ofEnum outer) = .ok ss) : ss.map (alter g) = ss := by
  rw [List.map_congr_left (g := id), List.map_id]
  intro s hs
  obtain ⟨e, -, he⟩ := Outcome.exists_left (Outcome.mapM_ok h) hs
  exact alter_of_ofEnum g he

mutual

theorem ofMessage_alter : ∀ (m : Message) (outer : Value),
    ofMessage outer (m.alter g) = (ofMessage outer m).map (alter g)
  | ⟨label, fields, enums, messages⟩, outer => by
    rw [Message.alter, ofMessage, ofMessage]
    split
    · simp only [ofMessages_alter messages]
      cases henums : enums.mapM (ofEnum (qualify outer label).1) with
      | error e => rfl
      | ok enumScopes =>
        cases ofMessages (qualify outer label).1 messages with
        | error e => rfl
        | ok scopes =>
          simp only [bind, Except.bind, Except.map, pure, Except.pure]
          rw [alter_mk, List.map_append, alter_of_ofEnums g henums]
    · rfl

theorem ofMessages_alter : ∀ (ms : List Message) (outer : Value),
    ofMessages outer (Message.alterAll g ms) = (ofMessages outer ms).map (List.map (alter g))
  | [], _ => rfl
  | m :: rest, outer => by
    rw [Message.alterAll, ofMessages, ofMessages, ofMessage_alter m, ofMessages_alter rest]
    cases ofMessage outer m with
    | error e => rfl
    | ok s => cases ofMessages outer rest <;> rfl

end

theorem ofSchema_alter (s : Schema) : ofSchema (s.alter g) = (ofSchema s).map (alter g) := by
  unfold ofSchema
  show (s.enums.mapM (ofEnum (.str "")) >>= fun enums =>
    ofMessages (.str "") (Message.alterAll g s.messages) >>= _) = _
  rw [ofMessages_alter]
  cases henums : s.enums.mapM (ofEnum (.str "")) with
  | error e => rfl
  | ok enums =>
    cases ofMessages (.str "") s.messages with
    | error e => rfl
    | ok messages =>
      simp only [bind, Except.bind, Except.map, pure, Except.pure]
      rw [alter_mk, List.map_append, alter_of_ofEnums g henums]
      rfl

end Scope

section

variable {g : Field → Field} (hg : Field.AltersOptions g)

include hg

/-- Neither the meaning of a field nor its default can be told from the changed options. -/
theorem Place.target_alter (p : Place) (f : Field) :
    (p.alter g).target (g f) = (p.target f).map (Target.alter g) := by
  obtain ⟨options, hf⟩ := hg.options f
  have htarget : (p.alter g).target (g f) = (p.alter g).target f := by
    rw [hf]
    rfl
  rw [htarget]
  exact target_mapFields _ p f

theorem Field.withDefault_alter (version : Version) (p : Place) (f : Field) :
    (g f).withDefault version (p.alter g) = (f.withDefault version p).map g := by
  obtain ⟨options, hf⟩ := hg.options f
  have habsent : ∀ type, (g f).absentValue version p type = f.absentValue version p type := by
    intro type
    have hexplicit : (g f).explicitDefault? version = f.explicitDefault? version := by
      cases version with
      | proto2 => exact hg.literal f
      | proto3 => rfl
    have hname : (g f).name = f.name := by rw [hf]
    unfold absentValue
    rw [hexplicit, hname]
  rw [Place.alter, withDefault_mapFields]
  unfold withDefault
  have htype : (g f).type.toText = f.type.toText := by rw [hf]
  cases hf' : f.type.toText with
  | error e =>
    rw [hf'] at htype
    simp only [htype]
    rfl
  | ok type =>
    rw [hf'] at htype
    simp only [htype, bind, Except.bind, habsent]
    cases f.absentValue version p type with
    | error e => rfl
    | ok v =>
      have hdefault := hg.default f (if f.repeated then .none else v)
      rw [hf] at hdefault ⊢
      exact congrArg Except.ok hdefault.symm

end

namespace Scope

mutual

/-- Changing options and attaching defaults can be done in either order. -/
theorem attach_alter {g : Field → Field} (hg : Field.AltersOptions g) (version : Version) :
    ∀ (s : Scope) (outer : List Scope),
    (s.alter g).attach version (outer.map (alter g)) = (s.attach version outer).map (alter g)
  | ⟨label, name, isTop, kind, fields, children⟩, outer => by
    have hfields := Outcome.mapM_map (g := g) fields fun f =>
      Field.withDefault_alter hg version ⟨⟨label, name, isTop, kind, fields, children⟩, outer⟩ f
    have hchildren :=
      attachAll_alter hg version children (⟨label, name, isTop, kind, fields, children⟩ :: outer)
    rw [Place.alter_mk, alter_mk] at hfields
    rw [List.map_cons, alter_mk] at hchildren
    rw [alter_mk, attach, attach, hchildren, hfields]
    cases attachAll version (⟨label, name, isTop, kind, fields, children⟩ :: outer) children with
    | error e => rfl
    | ok children' =>
      cases fields.mapM (·.withDefault version ⟨⟨label, name, isTop, kind, fields, children⟩, outer⟩) with
      | error e => rfl
      | ok fields' =>
        simp only [bind, Except.bind, Except.map, pure, Except.pure]
        rw [alter_mk]

theorem attachAll_alter {g : Field → Field} (hg : Field.AltersOptions g) (version : Version) :
    ∀ (ss outer : List Scope),
    attachAll version (outer.map (alter g)) (ss.map (alter g)) =
      (attachAll version outer ss).map (List.map (alter g))
  | [], _ => rfl
  | s :: rest, outer => by
    rw [List.map_cons, attachAll, attachAll, attach_alter hg version s,
      attachAll_alter hg version rest]
    cases s.attach version outer with
    | error e => rfl
    | ok t => cases attachAll version outer rest <;> rfl

end

end Scope

/-- The tree of a schema with changed options is the tree with changed options. -/
theorem Schema.context_alter {g : Field → Field} (hg : Field.AltersOptions g) (s : Schema) :
    (s.alter g).context = s.context.map (Scope.alter g) := by
  unfold context
  rw [Scope.ofSchema_alter]
  cases Scope.ofSchema s with
  | error e => rfl
  | ok root => exact Scope.attach_alter hg s.version root []

/-! ## What can be told without the text of options -/

def Field.unadorned (f : Field) : Field := { f with options := [] }

namespace Place

/-- What can be told of a field: all but its options as they are written, what its type means, and
whether it can be packed and is. -/
def viewField (p : Place) (f : Field) : Field × Except Fault (Target × Bool × Bool) :=
  (f.unadorned, (p.target f).map fun t => (t.alter Field.unadorned, f.packable t, f.isPacked t))

/-- What can be told of a place: all but the options of fields as they are written, and what can be told
of its fields. -/
def view (p : Place) : Place × List (Field × Except Fault (Target × Bool × Bool)) :=
  (p.alter Field.unadorned, p.scope.fields.map p.viewField)

/-- Whether a change of options leaves the same fields of a place packed. -/
def SamePacking (g : Field → Field) (p : Place) : Prop :=
  ∀ f ∈ p.scope.fields, ∀ t, p.target f = .ok t → (g f).isPacked t = f.isPacked t

end Place

/-- What can be told of the tree of a schema, in the order of its scopes. -/
def Schema.views (s : Schema) :
    Except Fault (List (Place × List (Field × Except Fault (Target × Bool × Bool)))) :=
  s.context.map fun root => root.walk.map Place.view

mutual

theorem Scope.alter_alter (g g' : Field → Field) : ∀ s : Scope, (s.alter g).alter g' = s.alter (g' ∘ g)
  | ⟨label, name, isTop, kind, fields, children⟩ => by
    rw [alter_mk, alter_mk, alter_mk, List.map_map, map_alter_alter g g' children]

theorem Scope.map_alter_alter (g g' : Field → Field) : ∀ ss : List Scope,
    (ss.map (alter g)).map (alter g') = ss.map (alter (g' ∘ g))
  | [] => rfl
  | s :: rest => by
    rw [List.map_cons, List.map_cons, List.map_cons, alter_alter g g' s, map_alter_alter g g' rest]

end

mutual

theorem Scope.places_alter (g : Field → Field) : ∀ (s : Scope) (outer : List Scope),
    (s.alter g).places (outer.map (alter g)) = (s.places outer).map (Place.alter g)
  | ⟨label, name, isTop, kind, fields, children⟩, outer => by
    have hchildren := placesOf_alter g children (⟨label, name, isTop, kind, fields, children⟩ :: outer)
    rw [List.map_cons, alter_mk] at hchildren
    rw [alter_mk, places, places, List.map_cons, hchildren, Place.alter_mk, alter_mk]

theorem Scope.placesOf_alter (g : Field → Field) : ∀ (ss outer : List Scope),
    placesOf (outer.map (alter g)) (ss.map (alter g)) = (placesOf outer ss).map (Place.alter g)
  | [], _ => rfl
  | s :: rest, outer => by
    rw [List.map_cons, placesOf, placesOf, List.map_append, places_alter g s, placesOf_alter g rest]

end

section

variable {g : Field → Field} (hg : Field.AltersOptions g)

include hg

theorem Field.unadorned_comp : Field.unadorned ∘ g = Field.unadorned := by
  funext f
  obtain ⟨options, hf⟩ := hg.options f
  show (g f).unadorned = f.unadorned
  rw [hf]
  rfl

theorem Place.unadorned_alter (p : Place) : (p.alter g).alter Field.unadorned = p.alter Field.unadorned := by
  obtain ⟨s, outer⟩ := p
  rw [alter_mk, alter_mk, alter_mk, Scope.alter_alter, Scope.map_alter_alter, Field.unadorned_comp hg]

theorem Target.unadorned_alter (t : Target) :
    (t.alter g).alter Field.unadorned = t.alter Field.unadorned := by
  cases t with
  | scalar t => rfl
  | enumeration p => exact congrArg Target.enumeration (Place.unadorned_alter hg p)
  | message p => exact congrArg Target.message (Place.unadorned_alter hg p)

theorem Field.packable_alter (f : Field) (t : Target) : (g f).packable t = f.packable t := by
  obtain ⟨options, hf⟩ := hg.options f
  rw [hf]
  rfl

theorem Place.viewField_alter_iff (p : Place) (f : Field) :
    (p.alter g).viewField (g f) = p.viewField f ↔
      ∀ t, p.target f = .ok t → (g f).isPacked t = f.isPacked t := by
  have hfield : (g f).unadorned = f.unadorned := congrFun (Field.unadorned_comp hg) f
  unfold viewField
  rw [hfield, target_alter hg]
  cases htarget : p.target f with
  | error e => simp [Except.map]
  | ok t =>
    simp [Except.map, Target.unadorned_alter hg, Field.packable_alter hg]

/-- A place looks the same as before if the same fields are packed. -/
theorem Place.view_alter_iff (p : Place) : (p.alter g).view = p.view ↔ p.SamePacking g := by
  unfold view SamePacking
  rw [unadorned_alter hg, alter_fields, List.map_map, Prod.mk.injEq, List.map_inj_left]
  simp only [true_and, Function.comp_apply, viewField_alter_iff hg]

/-- A schema looks the same as before if the same fields are packed. -/
theorem Schema.views_alter_iff (s : Schema) : (s.alter g).views = s.views ↔
    ∀ root, s.context = .ok root → ∀ p ∈ root.walk, p.SamePacking g := by
  unfold views
  rw [context_alter hg]
  cases s.context with
  | error e => simp [Except.map]
  | ok root =>
    have hwalk : (root.alter g).walk = root.walk.map (Place.alter g) := Scope.places_alter g root []
    simp only [Except.map, Except.ok.injEq, forall_eq', hwalk, List.map_map, List.map_inj_left]
    simp only [Function.comp_apply, Place.view_alter_iff hg]

end

end ProtoScribe
