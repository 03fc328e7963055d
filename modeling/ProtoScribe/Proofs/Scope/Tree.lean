import ProtoScribe.Codec.Slot
import ProtoScribe.Proofs.Outcome

/-!
# The places of a scope tree

`Place.Within root p` says how a place arises: it is the root, or a type declared at such a place.
These are the places that `walk` lists (`Scope.mem_walk_iff`), and resolution does not leave them:
whatever a reference means is a place of the same tree (`Place.Within.resolve`), and so is whatever a
slot embeds (`Place.Within.slot`).

What a reference means does not depend on the fields of a tree: changing them commutes with resolution
(`Place.resolve_mapFields`), and so do the meaning and the default of a field. Attaching defaults changes
nothing but the defaults of fields. `bare` forgets these, and attaching is invisible to it
(`Scope.attach_bare`). `Scope.attach_origin` says where the fields of an attached tree come from.
-/

namespace ProtoScribe

/-! ## Places within a tree -/

namespace Place

/-- The places of the tree below a root. -/
inductive Within (root : Scope) : Place → Prop
  | root : Within root ⟨root, []⟩
  | child {p : Place} {s : Scope} : Within root p → s ∈ p.scope.children → Within root (p.inside s)

end Place

namespace Scope

variable {root : Scope}

open Place (Within)

mutual

theorem within_of_mem_places : ∀ (s : Scope) (outer : List Scope), Within root ⟨s, outer⟩ →
    ∀ p ∈ s.places outer, Within root p
  | ⟨label, name, isTop, kind, fields, children⟩, outer, h, p, hp => by
    rw [places] at hp
    rcases List.mem_cons.1 hp with rfl | hp
    · exact h
    · exact within_of_mem_placesOf children h (fun _ hs => hs) p hp

theorem within_of_mem_placesOf : ∀ (ss : List Scope) {p : Place}, Within root p →
    (∀ s ∈ ss, s ∈ p.scope.children) → ∀ q ∈ placesOf (p.scope :: p.outer) ss, Within root q
  | [], _, _, _, q, hq => by
    rw [placesOf] at hq
    cases hq
  | s :: rest, p, h, hss, q, hq => by
    rw [placesOf] at hq
    rcases List.mem_append.1 hq with hq | hq
    · exact within_of_mem_places s _ (.child h (hss s (by simp))) q hq
    · exact within_of_mem_placesOf rest h (fun t ht => hss t (by simp [ht])) q hq

end

theorem mem_places_self (s : Scope) (outer : List Scope) : ⟨s, outer⟩ ∈ s.places outer := by
  cases s
  rw [places]
  exact List.mem_cons_self

theorem mem_placesOf {ss : List Scope} {s : Scope} (h : s ∈ ss) (outer : List Scope) :
    ⟨s, outer⟩ ∈ placesOf outer ss := by
  induction ss with
  | nil => cases h
  | cons t rest ih =>
    rw [placesOf]
    rcases List.mem_cons.1 h with rfl | h
    · exact List.mem_append_left _ (mem_places_self s outer)
    · exact List.mem_append_right _ (ih h)

mutual

theorem inside_mem_places : ∀ (s : Scope) (outer : List Scope) {p : Place} {c : Scope},
    p ∈ s.places outer → c ∈ p.scope.children → p.inside c ∈ s.places outer
  | ⟨label, name, isTop, kind, fields, children⟩, outer, p, c, hp, hc => by
    rw [places] at hp ⊢
    rcases List.mem_cons.1 hp with rfl | hp
    · exact List.mem_cons_of_mem _ (mem_placesOf hc _)
    · exact List.mem_cons_of_mem _ (inside_mem_placesOf children _ hp hc)

theorem inside_mem_placesOf : ∀ (ss : List Scope) (outer : List Scope) {p : Place} {c : Scope},
    p ∈ placesOf outer ss → c ∈ p.scope.children → p.inside c ∈ placesOf outer ss
  | [], _, _, _, hp, _ => by
    rw [placesOf] at hp
    cases hp
  | s :: rest, outer, p, c, hp, hc => by
    rw [placesOf] at hp ⊢
    rcases List.mem_append.1 hp with hp | hp
    · exact List.mem_append_left _ (inside_mem_places s outer hp hc)
    · exact List.mem_append_right _ (inside_mem_placesOf rest outer hp hc)

end

/-- Walking a tree lists exactly the places within it. -/
theorem mem_walk_iff {p : Place} : p ∈ root.walk ↔ Within root p := by
  constructor
  · exact within_of_mem_places root [] .root p
  · intro h
    induction h with
    | root => exact mem_places_self root []
    | child _ hs ih => exact inside_mem_places root [] ih hs

end Scope

namespace Place

variable {root : Scope} {p q : Place}

theorem Within.chain (h : Within root p) : ∀ q ∈ p.chain, Within root q := by
  induction h with
  | root =>
    intro q hq
    rw [List.mem_singleton.1 hq]
    exact .root
  | child hp hs ih =>
    intro q hq
    rcases List.mem_cons.1 hq with rfl | hq
    · exact .child hp hs
    · exact ih q hq

theorem Within.top (h : Within root p) : Within root p.top := by
  unfold Place.top
  cases hlast : p.chain.getLast? with
  | none => exact h
  | some q => exact h.chain q (List.mem_of_getLast? hlast)

theorem Within.child? (h : Within root p) {name : String} (hq : p.child? name = some q) :
    Within root q := by
  obtain ⟨s, hs, rfl⟩ := Option.map_eq_some_iff.1 hq
  exact .child h (List.mem_reverse.1 (List.mem_of_find?_eq_some hs))

theorem Within.descend (h : Within root p) {path : List String} (hq : p.descend path = some q) :
    Within root q := by
  induction path generalizing p with
  | nil =>
    cases hq
    exact h
  | cons name rest ih =>
    obtain ⟨c, hc, hq⟩ := Option.bind_eq_some_iff.1 hq
    exact ih (h.child? hc) hq

/-- A reference means a place of the tree that it is made in. -/
theorem Within.resolve (h : Within root p) {reference : String} (hq : p.resolve reference = some q) :
    Within root q := by
  unfold Place.resolve at hq
  split at hq
  · exact h.top.descend hq
  · obtain ⟨o, ho, hq⟩ := List.exists_of_findSome?_eq_some hq
    exact (h.chain o ho).descend hq

/-- A field of messages has a type that is declared. -/
theorem resolve_of_target {f : Field} {type : String} (h : p.target f = .ok (.message q))
    (htype : f.type.toText = .ok type) : p.resolve type = some q ∧ q.kind = .message := by
  unfold Place.target at h
  rw [htype] at h
  simp only [bind, Except.bind] at h
  split at h
  · next r hr =>
    split at h <;> cases h
    next hkind => exact ⟨hr, hkind⟩
  · split at h <;> cases h

/-- What the type of a field means is a place of the right kind, if it is a message. -/
theorem Within.target (h : Within root p) {f : Field} (ht : p.target f = .ok (.message q)) :
    Within root q ∧ q.kind = .message := by
  obtain ⟨type, htype, -⟩ := Outcome.bind_ok ht
  obtain ⟨hq, hkind⟩ := resolve_of_target ht htype
  exact ⟨h.resolve hq, hkind⟩

theorem slots_ok {slots : List Slot} (h : p.slots = .ok slots) :
    List.Forall₂ (fun f s => s.field = f ∧ p.target f = .ok s.target) p.scope.fields slots := by
  refine (Outcome.mapM_ok h).imp fun f s hs => ?_
  obtain ⟨t, ht, rfl⟩ := Outcome.map_ok hs
  exact ⟨rfl, ht⟩

theorem slots_fields {slots : List Slot} (h : p.slots = .ok slots) :
    slots.map (·.field) = p.scope.fields := by
  have hall := slots_ok h
  generalize p.scope.fields = fields at hall ⊢
  clear h
  induction hall with
  | nil => rfl
  | cons hs _ ih => rw [List.map_cons, ih, hs.1]

theorem slots_eq_ok {slots : List Slot}
    (h : List.Forall₂ (fun f s => s.field = f ∧ p.target f = .ok s.target) p.scope.fields slots) :
    p.slots = .ok slots := by
  refine Outcome.mapM_eq_ok (h.imp fun f s hs => ?_)
  obtain ⟨rfl, ht⟩ := hs
  rw [ht]
  rfl

/-- What a slot embeds is a message of the tree. -/
theorem Within.slot (h : Within root p) {slots : List Slot} {s : Slot} (hslots : p.slots = .ok slots)
    (hs : s ∈ slots) (ht : s.target = .message q) : Within root q ∧ q.kind = .message := by
  obtain ⟨f, -, -, hf⟩ := Outcome.exists_left (slots_ok hslots) hs
  exact h.target (ht ▸ hf)

end Place

/-! ## Trees with other fields -/

namespace Scope

mutual

/-- The scope with other fields: what `g` makes of the fields of a scope, given its qualified name. -/
def mapFields (g : Value → List Field → List Field) : Scope → Scope
  | ⟨label, name, isTop, kind, fields, children⟩ =>
    ⟨label, name, isTop, kind, g name fields, mapFieldsAll g children⟩

def mapFieldsAll (g : Value → List Field → List Field) : List Scope → List Scope
  | [] => []
  | s :: rest => mapFields g s :: mapFieldsAll g rest

end

section

variable (g : Value → List Field → List Field) (s : Scope)

theorem mapFieldsAll_eq_map (ss : List Scope) : mapFieldsAll g ss = ss.map (mapFields g) := by
  induction ss with
  | nil => rfl
  | cons s rest ih => rw [mapFieldsAll, ih, List.map_cons]

@[simp]
theorem mapFields_label : (s.mapFields g).label = s.label := by
  cases s
  rfl

@[simp]
theorem mapFields_kind : (s.mapFields g).kind = s.kind := by
  cases s
  rfl

@[simp]
theorem mapFields_name : (s.mapFields g).name = s.name := by
  cases s
  rfl

@[simp]
theorem mapFields_fields : (s.mapFields g).fields = g s.name s.fields := by
  cases s
  rfl

@[simp]
theorem mapFields_children : (s.mapFields g).children = s.children.map (mapFields g) := by
  cases s
  rw [← mapFieldsAll_eq_map]
  rfl

theorem child?_mapFields (name : String) :
    (s.mapFields g).child? name = (s.child? name).map (mapFields g) := by
  have hlabel : (fun t : Scope => decide (t.label = .str name)) ∘ mapFields g =
      fun t => decide (t.label = .str name) := by
    funext t
    simp
  rw [child?, child?, mapFields_children, ← List.map_reverse, List.find?_map, hlabel]

end

end Scope

namespace Place

/-- The place with other fields, also in the scopes around it. -/
def mapFields (g : Value → List Field → List Field) (p : Place) : Place :=
  ⟨p.scope.mapFields g, p.outer.map (Scope.mapFields g)⟩

section

variable (g : Value → List Field → List Field) (p : Place)

@[simp]
theorem mapFields_kind : (p.mapFields g).kind = p.kind := Scope.mapFields_kind g p.scope

theorem chain_mapFields : (p.mapFields g).chain = p.chain.map (mapFields g) := by
  have haround : ∀ s outer, around (Scope.mapFields g s) (outer.map (Scope.mapFields g)) =
      (around s outer).map (mapFields g) := by
    intro s outer
    induction outer generalizing s with
    | nil => rfl
    | cons o outer ih =>
      rw [List.map_cons, around, around, List.map_cons, ih]
      rfl
  exact haround p.scope p.outer

theorem top_mapFields : (p.mapFields g).top = p.top.mapFields g := by
  rw [top, top, chain_mapFields, List.getLast?_map]
  cases p.chain.getLast? <;> rfl

theorem child?_mapFields (name : String) :
    (p.mapFields g).child? name = (p.child? name).map (mapFields g) := by
  have hscope : (p.mapFields g).scope.child? name = (p.scope.child? name).map (Scope.mapFields g) :=
    Scope.child?_mapFields g p.scope name
  rw [child?, child?, hscope, Option.map_map, Option.map_map]
  rfl

theorem descend_mapFields (path : List String) :
    (p.mapFields g).descend path = (p.descend path).map (mapFields g) := by
  induction path generalizing p with
  | nil => rfl
  | cons name rest ih =>
    rw [descend, descend, child?_mapFields]
    cases p.child? name with
    | none => rfl
    | some q => exact ih q

/-- Resolution does not look at fields. -/
theorem resolve_mapFields (reference : String) :
    (p.mapFields g).resolve reference = (p.resolve reference).map (mapFields g) := by
  unfold resolve
  split
  · rw [top_mapFields, descend_mapFields]
  · rw [chain_mapFields, List.findSome?_map, List.map_findSome?]
    congr 1
    funext q
    exact descend_mapFields g q _

/-- Neither does the place of a type, so it changes along. -/
theorem Within.mapFields {root : Scope} {p : Place} (h : Within root p) :
    Within (root.mapFields g) (p.mapFields g) := by
  induction h with
  | root => exact .root
  | @child p s _ hs ih =>
    refine .child ih ?_
    show s.mapFields g ∈ (p.scope.mapFields g).children
    rw [Scope.mapFields_children]
    exact List.mem_map_of_mem hs

end

end Place

def Target.mapFields (g : Value → List Field → List Field) : Target → Target
  | .scalar t => .scalar t
  | .enumeration p => .enumeration (p.mapFields g)
  | .message p => .message (p.mapFields g)

section

variable (g : Value → List Field → List Field) (p : Place) (f : Field)

@[simp]
theorem Target.mapFields_scalar? (t : Target) : (t.mapFields g).scalar? = t.scalar? := by
  cases t <;> rfl

/-- A field means the same where other fields are others. -/
theorem Place.target_mapFields : (p.mapFields g).target f = (p.target f).map (Target.mapFields g) := by
  have hname : ∀ q : Place, (q.mapFields g).scope.name = q.scope.name := fun q =>
    Scope.mapFields_name g q.scope
  unfold target
  cases f.type.toText with
  | error e => rfl
  | ok type =>
    simp only [bind, Except.bind, resolve_mapFields, hname]
    cases p.resolve type with
    | none => cases Scalar.ofKeyword? type <;> rfl
    | some q =>
      simp only [Option.map_some, mapFields_kind, hname]
      cases q.kind <;> rfl

/-- The default of a field does not depend on the other fields. -/
theorem Field.withDefault_mapFields (version : Version) :
    f.withDefault version (p.mapFields g) = f.withDefault version p := by
  have hkind : ∀ type, ((p.mapFields g).resolve type).map Place.kind = (p.resolve type).map Place.kind := by
    intro type
    rw [Place.resolve_mapFields, Option.map_map]
    congr 1
    funext q
    exact Place.mapFields_kind g q
  unfold withDefault absentValue
  simp only [hkind]

end

/-! ## Trees without defaults -/

def Field.bare (f : Field) : Field := { f with default := .none }

namespace Scope

mutual

def bare : Scope → Scope
  | ⟨label, name, isTop, kind, fields, children⟩ =>
    ⟨label, name, isTop, kind, fields.map Field.bare, bareAll children⟩

def bareAll : List Scope → List Scope
  | [] => []
  | s :: rest => bare s :: bareAll rest

end

mutual

theorem bare_eq_mapFields : ∀ s : Scope, s.bare = s.mapFields fun _ => List.map Field.bare
  | ⟨label, name, isTop, kind, fields, children⟩ => by
    rw [bare, mapFields, bareAll_eq_mapFieldsAll children]

theorem bareAll_eq_mapFieldsAll : ∀ ss : List Scope,
    bareAll ss = mapFieldsAll (fun _ => List.map Field.bare) ss
  | [] => rfl
  | s :: rest => by
    rw [bareAll, mapFieldsAll, bare_eq_mapFields s, bareAll_eq_mapFieldsAll rest]

end

@[simp]
theorem bare_label (s : Scope) : s.bare.label = s.label := by
  rw [bare_eq_mapFields, mapFields_label]

@[simp]
theorem bare_kind (s : Scope) : s.bare.kind = s.kind := by
  rw [bare_eq_mapFields, mapFields_kind]

@[simp]
theorem bare_name (s : Scope) : s.bare.name = s.name := by
  rw [bare_eq_mapFields, mapFields_name]

@[simp]
theorem bare_fields (s : Scope) : s.bare.fields = s.fields.map Field.bare := by
  rw [bare_eq_mapFields, mapFields_fields]

@[simp]
theorem bare_children (s : Scope) : s.bare.children = s.children.map bare := by
  rw [bare_eq_mapFields, mapFields_children, ← funext bare_eq_mapFields]

end Scope

namespace Place

def bare (p : Place) : Place := ⟨p.scope.bare, p.outer.map Scope.bare⟩

@[simp]
theorem bare_kind (p : Place) : p.bare.kind = p.kind := Scope.bare_kind p.scope

theorem bare_eq_mapFields : bare = mapFields fun _ => List.map Field.bare := by
  funext p
  rw [bare, mapFields, ← Scope.bare_eq_mapFields, ← funext Scope.bare_eq_mapFields]

/-- Resolution does not look at defaults. -/
theorem resolve_bare (p : Place) (reference : String) :
    p.bare.resolve reference = (p.resolve reference).map bare := by
  rw [bare_eq_mapFields]
  exact resolve_mapFields _ p reference

end Place

/-- Defaults are found whatever default there was before. -/
theorem Field.withDefault_bare (f : Field) (version : Version) (p : Place) :
    f.bare.withDefault version p = f.withDefault version p := rfl

namespace Scope

theorem withDefault_bare {version : Version} {p : Place} {f f' : Field}
    (h : f.withDefault version p = .ok f') : f'.bare = f.bare := by
  obtain ⟨type, -, h⟩ := Outcome.bind_ok h
  obtain ⟨default, -, h⟩ := Outcome.bind_ok h
  cases h
  rfl

theorem map_bare_of_withDefault {version : Version} {p : Place} {fields fields' : List Field}
    (h : List.Forall₂ (fun f f' => f.withDefault version p = .ok f') fields fields') :
    fields'.map Field.bare = fields.map Field.bare := by
  induction h with
  | nil => rfl
  | cons hf _ ih => rw [List.map_cons, List.map_cons, withDefault_bare hf, ih]

mutual

/-- Attaching defaults changes nothing else. -/
theorem attach_bare {version : Version} : ∀ (s : Scope) {outer : List Scope} {s' : Scope},
    s.attach version outer = .ok s' → s'.bare = s.bare
  | ⟨label, name, isTop, kind, fields, children⟩, outer, s', h => by
    rw [attach] at h
    obtain ⟨children', hchildren, h⟩ := Outcome.bind_ok h
    obtain ⟨fields', hfields, h⟩ := Outcome.bind_ok h
    cases h
    have hfs : fields'.map Field.bare = fields.map Field.bare :=
      map_bare_of_withDefault (Outcome.mapM_ok hfields)
    rw [bare, bare, attachAll_bare children hchildren, hfs]

theorem attachAll_bare {version : Version} : ∀ (ss : List Scope) {outer : List Scope} {ss' : List Scope},
    attachAll version outer ss = .ok ss' → bareAll ss' = bareAll ss
  | [], _, ss', h => by
    cases h
    rfl
  | s :: rest, outer, ss', h => by
    rw [attachAll] at h
    obtain ⟨t, ht, h⟩ := Outcome.bind_ok h
    obtain ⟨rest', hrest, h⟩ := Outcome.bind_ok h
    cases h
    rw [bareAll, bareAll, attach_bare s ht, attachAll_bare rest hrest]

end

/-- Where a place of an attached tree comes from: a place that differs in defaults only, from which
the defaults of its fields were found. -/
def Origin (version : Version) (p p' : Place) : Prop :=
  p.bare = p'.bare ∧
    List.Forall₂ (fun f f' => f.withDefault version p = .ok f') p.scope.fields p'.scope.fields

mutual

theorem attach_origin {version : Version} : ∀ (s : Scope) {outer outer' : List Scope} {s' : Scope},
    s.attach version outer = .ok s' → outer.map bare = outer'.map bare →
    ∀ p' ∈ s'.places outer', ∃ p ∈ s.places outer, Origin version p p'
  | ⟨label, name, isTop, kind, fields, children⟩, outer, outer', s', h, houter, p', hp' => by
    have hbare := attach_bare _ h
    rw [attach] at h
    obtain ⟨children', hchildren, h⟩ := Outcome.bind_ok h
    obtain ⟨fields', hfields, h⟩ := Outcome.bind_ok h
    cases h
    rw [places] at hp' ⊢
    rcases List.mem_cons.1 hp' with rfl | hp'
    · refine ⟨_, by simp, ?_, Outcome.mapM_ok hfields⟩
      rw [Place.bare, Place.bare, houter, hbare]
    · have houters : (⟨label, name, isTop, kind, fields, children⟩ :: outer).map bare =
          (⟨label, name, isTop, kind, fields', children'⟩ :: outer').map bare := by
        rw [List.map_cons, List.map_cons, houter, hbare]
      obtain ⟨p, hp, horigin⟩ := attachAll_origin children hchildren houters p' hp'
      exact ⟨p, List.mem_cons_of_mem _ hp, horigin⟩

theorem attachAll_origin {version : Version} : ∀ (ss : List Scope) {outer outer' : List Scope}
    {ss' : List Scope}, attachAll version outer ss = .ok ss' → outer.map bare = outer'.map bare →
    ∀ p' ∈ placesOf outer' ss', ∃ p ∈ placesOf outer ss, Origin version p p'
  | [], _, _, ss', h, _, p', hp' => by
    cases h
    rw [placesOf] at hp'
    cases hp'
  | s :: rest, outer, outer', ss', h, houter, p', hp' => by
    rw [attachAll] at h
    obtain ⟨t, ht, h⟩ := Outcome.bind_ok h
    obtain ⟨rest', hrest, h⟩ := Outcome.bind_ok h
    cases h
    rw [placesOf] at hp' ⊢
    rcases List.mem_append.1 hp' with hp' | hp'
    · obtain ⟨p, hp, horigin⟩ := attach_origin s ht houter p' hp'
      exact ⟨p, List.mem_append_left _ hp, horigin⟩
    · obtain ⟨p, hp, horigin⟩ := attachAll_origin rest hrest houter p' hp'
      exact ⟨p, List.mem_append_right _ hp, horigin⟩

end

end Scope

end ProtoScribe
