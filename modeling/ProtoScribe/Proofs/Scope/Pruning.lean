import ProtoScribe.Proofs.Scope.Names

/-!
# Schemas with fewer fields

`Schema.prune` leaves fields out of the messages of a schema and keeps all its types. Which fields stay
is said by the qualified name of their message and their own name. The tree of such a schema is the
tree of the whole schema with these fields left out (`Schema.context_prune`): references mean the same,
so the fields that are left have the defaults and the meanings they had (`Place.slots_prune`).
-/

namespace ProtoScribe

variable (keep : Value → Value → Bool)

/-! ## Schemas -/

namespace Message

mutual

/-- The message with only those fields, of it and of the messages inside, that are to be kept. -/
def prune (outer : Value) : Message → Message
  | ⟨name, fields, enums, messages⟩ =>
    let qualified := (Scope.qualify outer name).1
    ⟨name, fields.filter fun f => keep qualified f.name, enums, pruneAll qualified messages⟩

def pruneAll (outer : Value) : List Message → List Message
  | [] => []
  | m :: rest => prune outer m :: pruneAll outer rest

end

theorem prune_name (outer : Value) (m : Message) : (m.prune keep outer).name = m.name := by
  cases m
  rfl

theorem pruneAll_names (outer : Value) (ms : List Message) :
    (pruneAll keep outer ms).map (·.name) = ms.map (·.name) := by
  induction ms with
  | nil => rfl
  | cons m rest ih => rw [pruneAll, List.map_cons, List.map_cons, prune_name, ih]

mutual

theorem typeNames_prune : ∀ (m : Message) (outer : Value),
    (m.prune keep outer).all.map typeNames = m.all.map typeNames
  | ⟨name, fields, enums, messages⟩, outer => by
    rw [prune, all, all, List.map_cons, List.map_cons, typeNames_pruneAll messages, typeNames, typeNames,
      pruneAll_names]

theorem typeNames_pruneAll : ∀ (ms : List Message) (outer : Value),
    (allOf (pruneAll keep outer ms)).map typeNames = (allOf ms).map typeNames
  | [], _ => rfl
  | m :: rest, outer => by
    rw [pruneAll, allOf, allOf, List.map_append, List.map_append, typeNames_prune m,
      typeNames_pruneAll rest]

end

end Message

namespace Schema

/-- The schema with only those fields that are to be kept, by the qualified names of their messages and
their own names. -/
def prune (s : Schema) : Schema := { s with messages := Message.pruneAll keep (.str "") s.messages }

/-- Names of types do not depend on fields. -/
theorem wellNamed_prune {s : Schema} (h : s.wellNamed = true) : (s.prune keep).wellNamed = true := by
  obtain ⟨htop, hmessages⟩ := Bool.and_eq_true_iff.1 h
  have hnames : (s.prune keep).typeNames = s.typeNames := by
    show s.enums.map (·.name) ++ (Message.pruneAll keep (.str "") s.messages).map (·.name) = _
    rw [Message.pruneAll_names]
    rfl
  refine Bool.and_eq_true_iff.2 ⟨by rwa [hnames], List.all_eq_true.2 fun m hm => ?_⟩
  have hmem : m.typeNames ∈ s.allMessages.map Message.typeNames := by
    rw [allMessages, ← Message.typeNames_pruneAll keep s.messages (.str "")]
    exact List.mem_map_of_mem hm
  obtain ⟨m', hm', hsame⟩ := List.mem_map.1 hmem
  rw [← hsame]
  exact List.all_eq_true.1 hmessages m' hm'

end Schema

/-! ## Trees -/

/-- The scope with only those fields that are to be kept. -/
def Scope.prune : Scope → Scope := Scope.mapFields fun name => List.filter fun f => keep name f.name

/-- The place with only those fields, also in the scopes around it, that are to be kept. -/
def Place.prune : Place → Place := Place.mapFields fun name => List.filter fun f => keep name f.name

def Target.prune : Target → Target
  | .scalar t => .scalar t
  | .enumeration p => .enumeration (p.prune keep)
  | .message p => .message (p.prune keep)

def Slot.prune (s : Slot) : Slot := ⟨s.field, s.target.prune keep⟩

/-- The slot of a message where fields are left out, unless it is left out itself. -/
def Slot.kept? (name : Value) (s : Slot) : Option Slot :=
  if keep name s.field.name then some (s.prune keep) else none

@[simp]
theorem Target.prune_scalar? (t : Target) : (t.prune keep).scalar? = t.scalar? := by
  cases t <;> rfl

namespace Place

theorem prune_name (p : Place) : (p.prune keep).scope.name = p.scope.name :=
  Scope.mapFields_name _ p.scope

theorem prune_fields (p : Place) :
    (p.prune keep).scope.fields = p.scope.fields.filter fun f => keep p.scope.name f.name :=
  Scope.mapFields_fields _ p.scope

/-- The fields that are left mean what they meant. -/
theorem target_prune (p : Place) (f : Field) :
    (p.prune keep).target f = (p.target f).map (Target.prune keep) := by
  have hprune : Target.prune keep = Target.mapFields fun name => List.filter fun f => keep name f.name := by
    funext t
    cases t <;> rfl
  rw [hprune]
  exact target_mapFields _ p f

/-- The slots that are left. -/
theorem slots_prune {p : Place} {slots : List Slot} (h : p.slots = .ok slots) :
    (p.prune keep).slots = .ok (slots.filterMap (Slot.kept? keep p.scope.name)) := by
  have hkept : slots.filterMap (Slot.kept? keep p.scope.name) =
      (slots.filter fun s => keep p.scope.name s.field.name).map (Slot.prune keep) := by
    rw [← List.filterMap_eq_map, List.filterMap_filter]
    rfl
  refine slots_eq_ok ?_
  rw [hkept, prune_fields, List.forall₂_map_right_iff]
  have hfields := List.rel_filter (p := fun f => keep p.scope.name f.name)
    (q := fun s => keep p.scope.name s.field.name) (fun f s hs => by simp only [hs.1]) (slots_ok h)
  refine hfields.imp fun f s hs => ⟨hs.1, ?_⟩
  rw [target_prune, hs.2]
  rfl

end Place

/-! ## The tree of a pruned schema -/

namespace Scope

theorem prune_of_ofEnum {outer : Value} {e : Enumeration} {s : Scope} (h : ofEnum outer e = .ok s) :
    s.prune keep = s := by
  unfold ofEnum at h
  split at h <;> cases h
  rfl

theorem prune_of_ofEnums {outer : Value} {es : List Enumeration} {ss : List Scope}
    (h : es.mapM (ofEnum outer) = .ok ss) : ss.map (prune keep) = ss := by
  rw [List.map_congr_left (g := id), List.map_id]
  intro s hs
  obtain ⟨e, -, he⟩ := Outcome.exists_left (Outcome.mapM_ok h) hs
  exact prune_of_ofEnum keep he

mutual

theorem ofMessage_prune : ∀ (m : Message) {outer : Value} {s : Scope}, ofMessage outer m = .ok s →
    ofMessage outer (m.prune keep outer) = .ok (s.prune keep)
  | ⟨label, fields, enums, messages⟩, outer, s, h => by
    rw [ofMessage] at h
    rw [Message.prune, ofMessage]
    split at h
    · next hkey =>
      obtain ⟨enumScopes, henums, h⟩ := Outcome.bind_ok h
      obtain ⟨scopes, hscopes, h⟩ := Outcome.bind_ok h
      cases h
      simp only [if_pos hkey, henums, ofMessages_prune messages hscopes]
      rw [prune, mapFields, mapFieldsAll_eq_map, List.map_append]
      have henumScopes : enumScopes.map (mapFields _) = enumScopes := prune_of_ofEnums keep henums
      rw [henumScopes]
      rfl
    · cases h

theorem ofMessages_prune : ∀ (ms : List Message) {outer : Value} {ss : List Scope},
    ofMessages outer ms = .ok ss →
    ofMessages outer (Message.pruneAll keep outer ms) = .ok (ss.map (prune keep))
  | [], _, ss, h => by
    cases h
    rfl
  | m :: rest, outer, ss, h => by
    rw [ofMessages] at h
    obtain ⟨s, hs, h⟩ := Outcome.bind_ok h
    obtain ⟨ss, hss, h⟩ := Outcome.bind_ok h
    cases h
    rw [Message.pruneAll, ofMessages, ofMessage_prune m hs, ofMessages_prune rest hss]
    rfl

end

theorem ofSchema_prune {s : Schema} {root : Scope} (h : ofSchema s = .ok root) :
    ofSchema (s.prune keep) = .ok (root.prune keep) := by
  obtain ⟨enums, henums, h⟩ := Outcome.bind_ok h
  obtain ⟨messages, hmessages, h⟩ := Outcome.bind_ok h
  cases h
  have hpruned := ofMessages_prune keep s.messages hmessages
  have hscopes : enums.map (mapFields _) = enums := prune_of_ofEnums keep henums
  rw [ofSchema, Schema.prune, henums, hpruned, prune, mapFields, mapFieldsAll_eq_map, List.map_append,
    hscopes]
  rfl

theorem withDefaults_prune {version : Version} {p : Place} {fields fields' : List Field} (name : Value)
    (h : fields.mapM (·.withDefault version p) = .ok fields') :
    (fields.filter fun f => keep name f.name).mapM (·.withDefault version (p.prune keep)) =
      .ok (fields'.filter fun f => keep name f.name) := by
  simp only [Place.prune, Field.withDefault_mapFields]
  refine Outcome.mapM_eq_ok (List.rel_filter (fun f f' hf => ?_) (Outcome.mapM_ok h))
  have hname : f'.bare.name = f.bare.name := by rw [withDefault_bare hf]
  have hname : f'.name = f.name := hname
  simp only [hname]

mutual

/-- Leaving out fields and attaching defaults can be done in either order. -/
theorem attach_prune {version : Version} : ∀ (s : Scope) {outer : List Scope} {s' : Scope},
    s.attach version outer = .ok s' →
    (s.prune keep).attach version (outer.map (prune keep)) = .ok (s'.prune keep)
  | ⟨label, name, isTop, kind, fields, children⟩, outer, s', h => by
    rw [attach] at h
    obtain ⟨children', hchildren, h⟩ := Outcome.bind_ok h
    obtain ⟨fields', hfields, h⟩ := Outcome.bind_ok h
    cases h
    -- the fields of this scope are resolved in the tree without defaults, which is pruned as well
    have hkept := withDefaults_prune keep name hfields
    have hinner := attachAll_prune children hchildren
    simp only [prune, Place.prune, Place.mapFields, List.map_cons, mapFields, mapFieldsAll_eq_map] at hkept hinner ⊢
    simp only [attach, hinner, hkept]
    rfl

theorem attachAll_prune {version : Version} : ∀ (ss : List Scope) {outer : List Scope} {ss' : List Scope},
    attachAll version outer ss = .ok ss' →
    attachAll version (outer.map (prune keep)) (ss.map (prune keep)) = .ok (ss'.map (prune keep))
  | [], _, ss', h => by
    cases h
    rfl
  | s :: rest, outer, ss', h => by
    rw [attachAll] at h
    obtain ⟨t, ht, h⟩ := Outcome.bind_ok h
    obtain ⟨rest', hrest, h⟩ := Outcome.bind_ok h
    cases h
    rw [List.map_cons, attachAll, attach_prune s ht, attachAll_prune rest hrest]
    rfl

end

end Scope

/-- The tree of a pruned schema is the pruned tree. -/
theorem Schema.context_prune {s : Schema} {root : Scope} (h : s.context = .ok root) :
    (s.prune keep).context = .ok (root.prune keep) := by
  obtain ⟨plain, hplain, hattach⟩ := context_ok h
  have hattach := Scope.attach_prune keep plain hattach
  unfold context
  rw [Scope.ofSchema_prune keep hplain]
  exact hattach

end ProtoScribe
