import ProtoScribe.Proofs.Scope.Tree

/-!
# Names of types

A schema is well-named if the types declared side by side have names that are texts, can stand between
dots, do not start with two underscores, and are all different (`Schema.wellNamed`); `Schema.Named` is
the same without the underscores, which matter to generated code only.

`Scope.ofSchema_declared` and `Schema.context_declared` say which declaration of the schema each scope of
its tree stands for.
-/

namespace ProtoScribe

/-! ## Components -/

namespace Text

theorem splitDots_ne_nil (cs : List Char) : splitDots cs ≠ [] := by
  cases cs with
  | nil => simp [splitDots]
  | cons c cs =>
    rw [splitDots]
    split
    · simp
    · split <;> simp

theorem splitDots_append (a b : List Char) : splitDots (a ++ '.' :: b) = splitDots a ++ splitDots b := by
  induction a with
  | nil => simp [splitDots]
  | cons c a ih =>
    rw [List.cons_append, splitDots, splitDots, ih]
    split
    · rfl
    · cases hsplit : splitDots a with
      | nil => exact absurd hsplit (splitDots_ne_nil a)
      | cons word words => rfl

theorem splitDots_of_notMem {cs : List Char} (h : '.' ∉ cs) : splitDots cs = [cs] := by
  induction cs with
  | nil => rfl
  | cons c cs ih =>
    rw [List.mem_cons, not_or] at h
    rw [splitDots, if_neg (Ne.symm h.1), ih h.2]

/-- A name without dots is its own only component. -/
theorem components_of_notMem {s : String} (h : '.' ∉ s.toList) : components s = [s] := by
  simp [components, splitDots_of_notMem h]

/-- Joining by a dot puts the components one after the other. -/
theorem components_join (a b : String) : components (a ++ "." ++ b) = components a ++ components b := by
  have hchars : (a ++ "." ++ b).toList = a.toList ++ '.' :: b.toList := by simp
  rw [components, hchars, splitDots_append, List.map_append]
  rfl

/-- Whether a text can name a type: it is not empty, has no dot in it and does not start with two
underscores. -/
def isTypeName (s : String) : Bool :=
  s ≠ "" && '.' ∉ s.toList && !(['_', '_'].isPrefixOf s.toList)

end Text

/-! ## Well-named schemas -/

/-- Whether types can be declared side by side under some names: all are names of types, and no two
are the same. -/
def Value.areTypeNames (names : List Value) : Bool :=
  names.all (fun
    | .str s => Text.isTypeName s
    | _ => false) && decide names.Nodup

namespace Message

mutual

def all : Message → List Message
  | ⟨name, fields, enums, messages⟩ => ⟨name, fields, enums, messages⟩ :: allOf messages

def allOf : List Message → List Message
  | [] => []
  | m :: rest => all m ++ allOf rest

end

def typeNames (m : Message) : List Value := m.enums.map (·.name) ++ m.messages.map (·.name)

end Message

namespace Schema

def allMessages (s : Schema) : List Message := Message.allOf s.messages

def typeNames (s : Schema) : List Value := s.enums.map (·.name) ++ s.messages.map (·.name)

/-- Whether all types of a schema have names that tell them apart from those declared beside them. -/
def wellNamed (s : Schema) : Bool :=
  Value.areTypeNames s.typeNames && s.allMessages.all fun m => Value.areTypeNames m.typeNames

end Schema

/-! ## What scopes stand for -/

def Scope.labels (s : Scope) : List Value := s.children.map (·.label)

/-- What a scope stands for: a whole schema, an enumeration, or one of some messages. -/
inductive Scope.Declares (top : List Value) (messages : List Message) (s : Scope) : Prop
  | root (kind : s.kind = .root) (labels : s.labels = top) (fields : s.fields = [])
  | enumeration (values : List (String × Int)) (kind : s.kind = .enumeration values)
    (labels : s.labels = []) (fields : s.fields = [])
  | message (m : Message) (mem : m ∈ messages) (kind : s.kind = .message)
    (labels : s.labels = m.typeNames) (fields : s.fields.map Field.bare = m.fields.map Field.bare)

/-- A place whose scope stands for a declaration and is qualified by the scope around it. -/
structure Place.Declared (top : List Value) (messages : List Message) (p : Place) : Prop where
  declares : p.scope.Declares top messages
  name : ∀ o outer, p.outer = o :: outer → p.scope.name = (Scope.qualify o.name p.scope.label).1
  inner : p.outer ≠ [] → p.kind ≠ .root

namespace Scope

theorem placesOf_append (outer ss ts : List Scope) :
    placesOf outer (ss ++ ts) = placesOf outer ss ++ placesOf outer ts := by
  induction ss with
  | nil => rfl
  | cons s rest ih => rw [List.cons_append, placesOf, placesOf, ih, List.append_assoc]

theorem ofEnum_label {outer : Value} {e : Enumeration} {s : Scope} (h : ofEnum outer e = .ok s) :
    s.label = e.name := by
  unfold ofEnum at h
  split at h <;> cases h
  rfl

theorem ofMessage_label {outer : Value} {m : Message} {s : Scope} (h : ofMessage outer m = .ok s) :
    s.label = m.name := by
  cases m
  rw [ofMessage] at h
  split at h
  · obtain ⟨enums, -, h⟩ := Outcome.bind_ok h
    obtain ⟨messages, -, h⟩ := Outcome.bind_ok h
    cases h
    rfl
  · cases h

theorem ofEnums_labels {outer : Value} {es : List Enumeration} {ss : List Scope}
    (h : es.mapM (ofEnum outer) = .ok ss) : ss.map (·.label) = es.map (·.name) := by
  have hall := Outcome.mapM_ok h
  clear h
  induction hall with
  | nil => rfl
  | cons hs _ ih => rw [List.map_cons, List.map_cons, ofEnum_label hs, ih]

theorem ofMessages_labels {outer : Value} {ms : List Message} {ss : List Scope}
    (h : ofMessages outer ms = .ok ss) : ss.map (·.label) = ms.map (·.name) := by
  induction ms generalizing ss with
  | nil =>
    cases h
    rfl
  | cons m rest ih =>
    rw [ofMessages] at h
    obtain ⟨s, hs, h⟩ := Outcome.bind_ok h
    obtain ⟨ss, hss, h⟩ := Outcome.bind_ok h
    cases h
    rw [List.map_cons, List.map_cons, ofMessage_label hs, ih hss]

variable {top : List Value} {messages : List Message}

theorem ofEnum_declared {outer : Value} {e : Enumeration} {s : Scope} (h : ofEnum outer e = .ok s)
    {o : Scope} (ho : o.name = outer) (os : List Scope) :
    ∀ p ∈ s.places (o :: os), p.Declared top messages := by
  intro p hp
  unfold ofEnum at h
  split at h
  · cases h
    rw [places, placesOf, List.mem_singleton] at hp
    subst hp
    refine ⟨.enumeration e.values rfl rfl rfl, ?_, by simp [Place.kind]⟩
    rintro _ _ ⟨⟩
    rw [ho]
  · cases h

theorem ofEnums_declared {outer : Value} {es : List Enumeration} {ss : List Scope}
    (h : es.mapM (ofEnum outer) = .ok ss) {o : Scope} (ho : o.name = outer) (os : List Scope) :
    ∀ p ∈ placesOf (o :: os) ss, p.Declared top messages := by
  have hall := Outcome.mapM_ok h
  clear h
  induction hall with
  | nil =>
    intro p hp
    rw [placesOf] at hp
    cases hp
  | cons hs _ ih =>
    intro p hp
    rw [placesOf] at hp
    rcases List.mem_append.1 hp with hp | hp
    · exact ofEnum_declared hs ho os p hp
    · exact ih p hp

mutual

theorem ofMessage_declared : ∀ (m : Message) {outer : Value} {s : Scope}, ofMessage outer m = .ok s →
    (∀ m' ∈ m.all, m' ∈ messages) → ∀ {o : Scope}, o.name = outer → ∀ (os : List Scope),
    ∀ p ∈ s.places (o :: os), p.Declared top messages
  | ⟨label, fields, enums, inner⟩, outer, s, h, hall, o, ho, os, p, hp => by
    rw [ofMessage] at h
    split at h
    · obtain ⟨enumScopes, henums, h⟩ := Outcome.bind_ok h
      obtain ⟨innerScopes, hinner, h⟩ := Outcome.bind_ok h
      cases h
      rw [places] at hp
      rcases List.mem_cons.1 hp with rfl | hp
      · refine ⟨.message ⟨label, fields, enums, inner⟩ (hall _ ?_) rfl ?_ rfl, ?_, by simp [Place.kind]⟩
        · simp [Message.all]
        · rw [labels, List.map_append, ofEnums_labels henums, ofMessages_labels hinner]
          rfl
        · rintro _ _ ⟨⟩
          rw [ho]
      · rw [placesOf_append] at hp
        rcases List.mem_append.1 hp with hp | hp
        · exact ofEnums_declared henums rfl _ p hp
        · refine ofMessages_declared inner hinner (fun m' hm' => hall m' ?_) rfl _ p hp
          rw [Message.all]
          exact List.mem_cons_of_mem _ hm'
    · cases h

theorem ofMessages_declared : ∀ (ms : List Message) {outer : Value} {ss : List Scope},
    ofMessages outer ms = .ok ss → (∀ m' ∈ Message.allOf ms, m' ∈ messages) →
    ∀ {o : Scope}, o.name = outer → ∀ (os : List Scope),
    ∀ p ∈ placesOf (o :: os) ss, p.Declared top messages
  | [], _, ss, h, _, _, _, _, p, hp => by
    cases h
    rw [placesOf] at hp
    cases hp
  | m :: rest, outer, ss, h, hall, o, ho, os, p, hp => by
    rw [ofMessages] at h
    obtain ⟨s, hs, h⟩ := Outcome.bind_ok h
    obtain ⟨ss, hss, h⟩ := Outcome.bind_ok h
    cases h
    rw [Message.allOf] at hall
    rw [placesOf] at hp
    rcases List.mem_append.1 hp with hp | hp
    · exact ofMessage_declared m hs (fun m' hm' => hall m' (List.mem_append_left _ hm')) ho os p hp
    · exact ofMessages_declared rest hss (fun m' hm' => hall m' (List.mem_append_right _ hm')) ho os p hp

end

theorem ofSchema_declared {s : Schema} {root : Scope} (h : ofSchema s = .ok root) :
    ∀ p ∈ root.walk, p.Declared s.typeNames s.allMessages := by
  intro p hp
  obtain ⟨enums, henums, h⟩ := Outcome.bind_ok h
  obtain ⟨messages, hmessages, h⟩ := Outcome.bind_ok h
  cases h
  rw [walk, places] at hp
  rcases List.mem_cons.1 hp with rfl | hp
  · refine ⟨.root rfl ?_ rfl, ?_, fun hne => absurd rfl hne⟩
    · rw [labels, List.map_append, ofEnums_labels henums, ofMessages_labels hmessages]
      rfl
    · rintro _ _ ⟨⟩
  · rw [placesOf_append] at hp
    rcases List.mem_append.1 hp with hp | hp
    · exact ofEnums_declared henums rfl _ p hp
    · exact ofMessages_declared s.messages hmessages (fun _ hm => hm) rfl _ p hp

/-! ### Trees exist -/

theorem exists_ofEnums {outer : Value} {es : List Enumeration} (h : ∀ e ∈ es, e.name.isKey = true) :
    ∃ ss, es.mapM (ofEnum outer) = .ok ss := by
  apply Outcome.exists_mapM_ok
  intro e he
  rw [ofEnum, if_pos (h e he)]
  exact ⟨_, rfl⟩

mutual

theorem exists_ofMessage : ∀ (m : Message) (outer : Value), m.name.isKey = true →
    (∀ m' ∈ m.all, ∀ v ∈ m'.typeNames, v.isKey = true) → ∃ s, ofMessage outer m = .ok s
  | ⟨label, fields, enums, inner⟩, outer, hname, hall => by
    rw [Message.all, List.forall_mem_cons] at hall
    obtain ⟨hown, hinner⟩ := hall
    rw [Message.typeNames, List.forall_mem_append, List.forall_mem_map, List.forall_mem_map] at hown
    obtain ⟨enumScopes, henums⟩ : ∃ ss, enums.mapM (ofEnum (qualify outer label).1) = .ok ss :=
      exists_ofEnums hown.1
    obtain ⟨innerScopes, hscopes⟩ := exists_ofMessages inner (qualify outer label).1 hown.2 hinner
    rw [ofMessage, if_pos hname]
    simp only [henums, hscopes]
    exact ⟨_, rfl⟩

theorem exists_ofMessages : ∀ (ms : List Message) (outer : Value), (∀ m ∈ ms, m.name.isKey = true) →
    (∀ m' ∈ Message.allOf ms, ∀ v ∈ m'.typeNames, v.isKey = true) → ∃ ss, ofMessages outer ms = .ok ss
  | [], outer, _, _ => ⟨[], by rw [ofMessages]⟩
  | m :: rest, outer, hnames, hall => by
    rw [List.forall_mem_cons] at hnames
    rw [Message.allOf, List.forall_mem_append] at hall
    obtain ⟨s, hs⟩ := exists_ofMessage m outer hnames.1 hall.1
    obtain ⟨ss, hss⟩ := exists_ofMessages rest outer hnames.2 hall.2
    rw [ofMessages, hs, hss]
    exact ⟨_, rfl⟩

end

/-- A schema has a tree if its types have names that can be looked up. -/
theorem exists_ofSchema {s : Schema} (htop : ∀ v ∈ s.typeNames, v.isKey = true)
    (hnested : ∀ m ∈ s.allMessages, ∀ v ∈ m.typeNames, v.isKey = true) :
    ∃ root, ofSchema s = .ok root := by
  rw [Schema.typeNames, List.forall_mem_append, List.forall_mem_map, List.forall_mem_map] at htop
  obtain ⟨enums, henums⟩ : ∃ ss, s.enums.mapM (ofEnum (.str "")) = .ok ss := exists_ofEnums htop.1
  obtain ⟨messages, hmessages⟩ := exists_ofMessages s.messages (.str "") htop.2 hnested
  rw [ofSchema, henums, hmessages]
  exact ⟨_, rfl⟩

end Scope

/-- Declarations can be told without looking at defaults. -/
theorem Place.Declared.of_bare {top : List Value} {messages : List Message} {p p' : Place}
    (hbare : p.bare = p'.bare) (h : p.Declared top messages) : p'.Declared top messages := by
  have hscope : p.scope.bare = p'.scope.bare := congrArg Place.scope hbare
  have hkind : p.scope.kind = p'.scope.kind := by simpa using congrArg Scope.kind hscope
  have hlabel : p.scope.label = p'.scope.label := by simpa using congrArg Scope.label hscope
  have hname : p.scope.name = p'.scope.name := by simpa using congrArg Scope.name hscope
  have hfields : p.scope.fields.map Field.bare = p'.scope.fields.map Field.bare := by
    simpa using congrArg Scope.fields hscope
  have hlabels : p.scope.labels = p'.scope.labels := by
    have := congrArg (List.map (·.label)) (congrArg Scope.children hscope)
    simpa [Scope.labels, Function.comp_def] using this
  have hnone : p.scope.fields = [] → p'.scope.fields = [] := by
    intro hnil
    rw [hnil] at hfields
    exact List.map_eq_nil_iff.1 hfields.symm
  have houters : p.outer.map Scope.bare = p'.outer.map Scope.bare := congrArg Place.outer hbare
  constructor
  case declares =>
    cases h.declares with
    | root kind labels fields => exact .root (hkind ▸ kind) (hlabels ▸ labels) (hnone fields)
    | enumeration values kind labels fields =>
      exact .enumeration values (hkind ▸ kind) (hlabels ▸ labels) (hnone fields)
    | message m mem kind labels fields =>
      exact .message m mem (hkind ▸ kind) (hlabels ▸ labels) (hfields ▸ fields)
  case inner =>
    intro hne hroot
    refine h.inner (fun hnil => hne ?_) (hkind.trans hroot)
    rw [hnil] at houters
    exact List.map_eq_nil_iff.1 houters.symm
  case name =>
    intro o' outer' houter'
    rw [houter'] at houters
    cases houter : p.outer with
    | nil =>
      rw [houter] at houters
      cases houters
    | cons o outer =>
      rw [houter, List.map_cons, List.map_cons] at houters
      have honame : o.name = o'.name := by simpa using congrArg Scope.name (List.cons.inj houters).1
      rw [← hname, ← hlabel, ← honame]
      exact h.name o outer houter

namespace Schema

open Place (Within)

variable {s : Schema} {root : Scope} {p : Place}

theorem context_ok (h : s.context = .ok root) :
    ∃ plain, Scope.ofSchema s = .ok plain ∧ plain.attach s.version [] = .ok root :=
  Outcome.bind_ok h

/-- Every scope of the tree of a schema stands for one of its declarations. -/
theorem context_declared (h : s.context = .ok root) (hp : Within root p) :
    p.Declared s.typeNames s.allMessages := by
  obtain ⟨plain, hplain, hattach⟩ := context_ok h
  obtain ⟨p₀, hp₀, hbare, -⟩ := Scope.attach_origin plain hattach rfl p (Scope.mem_walk_iff.2 hp)
  exact (Scope.ofSchema_declared hplain p₀ hp₀).of_bare hbare

theorem context_root (h : s.context = .ok root) : root.name = .str "" ∧ root.kind = .root := by
  obtain ⟨plain, hplain, hattach⟩ := context_ok h
  have hbare := Scope.attach_bare plain hattach
  have hname : root.name = plain.name := by simpa using congrArg Scope.name hbare
  have hkind : root.kind = plain.kind := by simpa using congrArg Scope.kind hbare
  obtain ⟨enums, -, hplain⟩ := Outcome.bind_ok hplain
  obtain ⟨messages, -, hplain⟩ := Outcome.bind_ok hplain
  rw [hname, hkind]
  cases hplain
  exact ⟨rfl, rfl⟩

end Schema

/-! ## Names that tell types apart -/

/-- Names that types declared side by side can have: texts that are not empty and have no dot in them,
all different. -/
structure Value.AreNames (names : List Value) : Prop where
  nodup : names.Nodup
  text : ∀ v ∈ names, ∃ s, v = .str s ∧ s ≠ "" ∧ '.' ∉ s.toList

theorem Value.of_areTypeNames {names : List Value} (h : areTypeNames names = true) : AreNames names := by
  obtain ⟨hall, hnodup⟩ := Bool.and_eq_true_iff.1 h
  refine ⟨of_decide_eq_true hnodup, fun v hv => ?_⟩
  have hname := List.all_eq_true.1 hall v hv
  split at hname
  · next s =>
    simp only [Text.isTypeName, Bool.and_eq_true, decide_eq_true_eq] at hname
    exact ⟨s, rfl, hname.1.1, hname.1.2⟩
  · cases hname

/-- A schema whose types are told apart by their names wherever they are declared side by side. -/
structure Schema.Named (s : Schema) : Prop where
  top : Value.AreNames s.typeNames
  nested : ∀ m ∈ s.allMessages, Value.AreNames m.typeNames

theorem Schema.named_of_wellNamed {s : Schema} (h : s.wellNamed = true) : s.Named := by
  obtain ⟨htop, hmessages⟩ := Bool.and_eq_true_iff.1 h
  exact ⟨Value.of_areTypeNames htop, fun m hm => Value.of_areTypeNames (List.all_eq_true.1 hmessages m hm)⟩

end ProtoScribe
