import Mathlib.Data.List.Nodup
import ProtoScribe.Code.Module
import ProtoScribe.Proofs.Scope.Paths

/-!
# What a loaded module binds

Loading the code of a well-named schema binds every message, under its path, to a class with the
functions that were emitted for it (`Linked`, `linked_of_ofSchema`). Nothing is overwritten on the way:
types declared side by side have different names, and the names of the functions are not among them.
-/

namespace ProtoScribe.Code

/-! ## Bindings -/

theorem lookup_assign_self (bindings : Bindings) (name : String) (o : Object) :
    (assign bindings name o).lookup name = some o := by
  induction bindings with
  | nil => simp [assign]
  | cons binding rest ih =>
    obtain ⟨n, old⟩ := binding
    rw [assign]
    split
    · next h => simp [h]
    · next h => simp [List.lookup_cons, beq_false_of_ne (Ne.symm h), ih]

/-- Assigning to one name leaves the others alone. -/
theorem lookup_assign_of_ne (bindings : Bindings) {name other : String} (o : Object)
    (h : other ≠ name) : (assign bindings name o).lookup other = bindings.lookup other := by
  induction bindings with
  | nil => simp [assign, List.lookup_cons, beq_false_of_ne h]
  | cons binding rest ih =>
    obtain ⟨n, old⟩ := binding
    rw [assign]
    split
    · next heq => simp [List.lookup_cons, heq, beq_false_of_ne h]
    · simp only [List.lookup_cons, ih]

/-! ## Declarations -/

def Decl.name? : Decl → Option String
  | .table name _ | .type name _ => some name
  | .method f => some f.name
  | .publish _ _ => none

inductive Decl.Binds : Decl → Object → Prop
  | table {name : String} {values : List (String × Int)} : Binds (.table name values)
      (.value (Value.ofEntries (values.map fun (symbol, n) => (Value.str symbol, Value.int n))))
  | method {f : Function} : Binds (.method f) (.function f)
  | type {name : String} {members : List Decl} {bound : Bindings} (h : bindAll [] members = .ok bound) :
      Binds (.type name members) (.type bound)

/-- A declaration that binds something binds it to its own name. -/
theorem bind_ok {d : Decl} {name : String} {bindings bindings' : Bindings} (hname : d.name? = some name)
    (h : d.bind bindings = .ok bindings') : ∃ o, d.Binds o ∧ bindings' = assign bindings name o := by
  cases d with
  | table n values =>
    cases hname
    rw [Decl.bind] at h
    cases h
    exact ⟨_, .table, rfl⟩
  | method f =>
    cases hname
    rw [Decl.bind] at h
    cases h
    exact ⟨_, .method, rfl⟩
  | type n members =>
    cases hname
    rw [Decl.bind] at h
    obtain ⟨bound, hbound, h⟩ := Outcome.bind_ok h
    split at h
    · cases h
    · cases h
      exact ⟨_, .type hbound, rfl⟩
  | publish object n => cases hname

/-- Declarations of other names leave a binding alone. -/
theorem lookup_bindAll_of_ne {ds : List Decl} {name : String} {bindings bindings' : Bindings}
    (hnames : ∀ d ∈ ds, d.name? ≠ none) (hne : ∀ d ∈ ds, d.name? ≠ some name)
    (h : bindAll bindings ds = .ok bindings') : bindings'.lookup name = bindings.lookup name := by
  induction ds generalizing bindings with
  | nil =>
    rw [bindAll] at h
    cases h
    rfl
  | cons d rest ih =>
    rw [bindAll] at h
    obtain ⟨bindings₁, hd, h⟩ := Outcome.bind_ok h
    obtain ⟨n, hn⟩ := Option.ne_none_iff_exists'.1 (hnames d (by simp))
    obtain ⟨o, -, rfl⟩ := bind_ok hn hd
    have hname : name ≠ n := fun heq => hne d (by simp) (heq ▸ hn)
    rw [ih (fun d' hd' => hnames d' (by simp [hd'])) (fun d' hd' => hne d' (by simp [hd'])) h,
      lookup_assign_of_ne _ _ hname]

/-- Of declarations of different names, each binds its own. -/
theorem lookup_bindAll {ds : List Decl} {bindings bindings' : Bindings}
    (hnames : ∀ d ∈ ds, d.name? ≠ none) (hnodup : (ds.map Decl.name?).Nodup)
    (h : bindAll bindings ds = .ok bindings') {d : Decl} (hd : d ∈ ds) {name : String}
    (hname : d.name? = some name) : ∃ o, d.Binds o ∧ bindings'.lookup name = some o := by
  induction ds generalizing bindings with
  | nil => cases hd
  | cons first rest ih =>
    rw [bindAll] at h
    obtain ⟨bindings₁, hfirst, h⟩ := Outcome.bind_ok h
    rw [List.map_cons, List.nodup_cons] at hnodup
    have hrest : ∀ d ∈ rest, d.name? ≠ none := fun d' hd' => hnames d' (by simp [hd'])
    rcases List.mem_cons.1 hd with rfl | hd
    · obtain ⟨o, hbinds, rfl⟩ := bind_ok hname hfirst
      refine ⟨o, hbinds, ?_⟩
      rw [lookup_bindAll_of_ne hrest ?_ h, lookup_assign_self]
      intro d' hd' hsame
      exact hnodup.1 (List.mem_map.2 ⟨d', hd', by rw [hsame, hname]⟩)
    · exact ih hrest hnodup.2 h hd

/-! ## Classes -/

def Denotes (options : Options) (p : Place) (o : Object) : Prop :=
  ∃ d, declare options p.outer p.scope = .ok d ∧ d.Binds o

theorem declare_name {options : Options} {outer : List Scope} {s : Scope} {d : Decl}
    (h : declare options outer s = .ok d) : ∃ name, s.shortName = .ok name ∧ d.name? = some name := by
  obtain ⟨label, name, isTop, kind, fields, children⟩ := s
  cases kind with
  | enumeration values =>
    rw [declare] at h
    obtain ⟨short, hshort, h⟩ := Outcome.bind_ok h
    cases h
    exact ⟨short, hshort, rfl⟩
  | root | message =>
    rw [declare] at h
    obtain ⟨own, -, h⟩ := Outcome.bind_ok h
    obtain ⟨nested, -, h⟩ := Outcome.bind_ok h
    obtain ⟨short, hshort, h⟩ := Outcome.bind_ok h
    cases h
    exact ⟨short, hshort, rfl⟩

/-- What the declaration of a type consists of: its methods, and the types inside it. -/
theorem declare_type {options : Options} {p : Place} {d : Decl}
    (hkind : ∀ values, p.kind ≠ .enumeration values) (h : declare options p.outer p.scope = .ok d) :
    ∃ name own nested, methods options p = .ok own ∧
      declareNested options (p.scope :: p.outer) p.scope.children = .ok nested ∧
      d = .type name (own ++ nested) := by
  obtain ⟨⟨label, name, isTop, kind, fields, children⟩, outer⟩ := p
  cases kind with
  | enumeration values => exact absurd rfl (hkind values)
  | root | message =>
    rw [declare] at h
    obtain ⟨own, hown, h⟩ := Outcome.bind_ok h
    obtain ⟨nested, hnested, h⟩ := Outcome.bind_ok h
    obtain ⟨short, -, h⟩ := Outcome.bind_ok h
    cases h
    exact ⟨short, own, nested, hown, hnested, rfl⟩

/-- The functions that reading a message needs. -/
def HasReader (p : Place) (has : Function → Prop) : Prop :=
  ∃ name chain, p.scope.name = .str name ∧ readChain p p.scope.fields = .ok chain ∧
    has (readFunction name p.scope.fields) ∧ has (fieldFunction chain)

/-- The function that writing a message needs. -/
def HasWriter (p : Place) (has : Function → Prop) : Prop :=
  ∃ body, p.scope.fields.mapM (writeStatement p) = .ok body ∧ has (writeFunction body)

/-- The readers of a type, if they are not omitted: two methods with fixed names. -/
theorem readers_ok {p : Place} {reading : List Decl} {omitted : Bool}
    (h : omitIf omitted (readers p) = .ok reading) :
    ∃ fs : List Function, reading = fs.map .method ∧
      (fs.map (·.name)).Sublist ["read", "_read_field"] ∧ (omitted = false → HasReader p (· ∈ fs)) := by
  cases omitted with
  | true =>
    cases h
    exact ⟨[], rfl, by simp, by simp⟩
  | false =>
    obtain ⟨name, hname, h⟩ := Outcome.bind_ok h
    obtain ⟨chain, hchain, h⟩ := Outcome.bind_ok h
    cases h
    refine ⟨[readFunction name p.scope.fields, fieldFunction chain], rfl, .refl _, fun _ => ?_⟩
    exact ⟨name, chain, Value.toText_ok hname, hchain, by simp, by simp⟩

/-- The writer of a type, if it is not omitted. -/
theorem writers_ok {p : Place} {writing : List Decl} {omitted : Bool}
    (h : omitIf omitted (writers p) = .ok writing) :
    ∃ fs : List Function, writing = fs.map .method ∧ (fs.map (·.name)).Sublist ["write"] ∧
      (omitted = false → HasWriter p (· ∈ fs)) := by
  cases omitted with
  | true =>
    cases h
    exact ⟨[], rfl, by simp, by simp⟩
  | false =>
    obtain ⟨body, hbody, h⟩ := Outcome.bind_ok h
    cases h
    exact ⟨[writeFunction body], rfl, .refl _, fun _ => ⟨body, hbody, by simp⟩⟩

/-- The functions of a class: their names differ, and those asked for are among them. -/
theorem methods_ok {options : Options} {p : Place} {own : List Decl} (h : methods options p = .ok own) :
    ∃ fs : List Function, own = fs.map .method ∧ (fs.map (·.name)).Sublist methodNames ∧
      (options.noRead = false → HasReader p (· ∈ fs)) ∧
      (options.noWrite = false → HasWriter p (· ∈ fs)) := by
  obtain ⟨reading, hreading, h⟩ := Outcome.bind_ok h
  obtain ⟨writing, hwriting, h⟩ := Outcome.bind_ok h
  cases h
  obtain ⟨fs, rfl, hfs, hreader⟩ := readers_ok hreading
  obtain ⟨gs, rfl, hgs, hwriter⟩ := writers_ok hwriting
  refine ⟨fs ++ gs, by simp, ?_, fun hr => ?_, fun hw => ?_⟩
  · rw [List.map_append]
    exact hfs.append hgs
  · obtain ⟨name, chain, hname, hchain, hread, hfield⟩ := hreader hr
    exact ⟨name, chain, hname, hchain, List.mem_append_left _ hread, List.mem_append_left _ hfield⟩
  · obtain ⟨body, hbody, hwrite⟩ := hwriter hw
    exact ⟨body, hbody, List.mem_append_right _ hwrite⟩

/-- Types whose short names are their labels, all different. -/
structure Labelled (ss : List Scope) : Prop where
  nodup : (ss.map (·.label)).Nodup
  short : ∀ s ∈ ss, ∃ label, s.label = .str label ∧ s.shortName = .ok label

/-- The declaration of a nested type is named by its label, and not like a function of the class. -/
def NestedDecl (options : Options) (outer : List Scope) (s : Scope) (d : Decl) : Prop :=
  ∃ label, s.label = .str label ∧ d.name? = some label ∧ label ∉ methodNames ∧
    declare options outer s = .ok d

/-- Each type inside another one has its declaration, in the same order. -/
theorem declareNested_ok {options : Options} {outer ss : List Scope} {ds : List Decl}
    (hshort : ∀ s ∈ ss, ∃ label, s.label = .str label ∧ s.shortName = .ok label)
    (h : declareNested options outer ss = .ok ds) :
    List.Forall₂ (NestedDecl options outer) ss ds := by
  induction ss generalizing ds with
  | nil =>
    rw [declareNested] at h
    cases h
    exact .nil
  | cons s rest ih =>
    rw [declareNested] at h
    obtain ⟨⟨⟩, hcheck, h⟩ := Outcome.bind_ok h
    obtain ⟨d, hd, h⟩ := Outcome.bind_ok h
    obtain ⟨ds, hds, h⟩ := Outcome.bind_ok h
    cases h
    refine .cons ?_ (ih (fun t ht => hshort t (by simp [ht])) hds)
    obtain ⟨label, hlabel, hname⟩ := hshort s (by simp)
    obtain ⟨name, hname', hd'⟩ := declare_name hd
    obtain ⟨short, hshort, hcheck⟩ := Outcome.bind_ok hcheck
    rw [hname] at hname' hshort
    cases hname'
    cases hshort
    refine ⟨label, hlabel, hd', fun hmem => ?_, hd⟩
    rw [if_pos hmem] at hcheck
    cases hcheck

/-- No two declarations in a class have one name. -/
theorem nodup_members {options : Options} {outer ss : List Scope} {fs : List Function} {ds : List Decl}
    (hfs : (fs.map (·.name)).Sublist methodNames) (hss : (ss.map (·.label)).Nodup)
    (hds : List.Forall₂ (NestedDecl options outer) ss ds) :
    ((fs.map Decl.method ++ ds).map Decl.name?).Nodup := by
  have hown : (fs.map Decl.method).map Decl.name? = (fs.map (·.name)).map some := by
    simp [Decl.name?, Function.comp_def]
  have hnested : (ds.map Decl.name?).map (Option.map Value.str) = (ss.map (·.label)).map some := by
    clear hss
    induction hds with
    | nil => rfl
    | cons hd _ ih =>
      obtain ⟨label, hlabel, hname, -⟩ := hd
      simp [ih, hlabel, hname]
  rw [List.map_append, List.nodup_append]
  refine ⟨?_, ?_, ?_⟩
  · rw [hown]
    exact (hfs.nodup (by decide)).map (fun _ _ => Option.some.inj)
  · refine List.Nodup.of_map (Option.map Value.str) ?_
    rw [hnested]
    exact hss.map (fun _ _ => Option.some.inj)
  · intro a ha b hb hab
    rw [hown] at ha
    obtain ⟨name, hname, rfl⟩ := List.mem_map.1 ha
    obtain ⟨d, hd, rfl⟩ := List.mem_map.1 hb
    obtain ⟨s, -, label, -, hlabel, hnot, -⟩ := Outcome.exists_left hds hd
    rw [hlabel] at hab
    cases hab
    exact hnot (hfs.subset hname)

/-- A class: its functions, and the types declared inside it. -/
structure ClassOf (options : Options) (p : Place) (members : Bindings) : Prop where
  reader : options.noRead = false → HasReader p fun f => members.lookup f.name = some (.function f)
  writer : options.noWrite = false → HasWriter p fun f => members.lookup f.name = some (.function f)
  nested : ∀ c ∈ p.scope.children, ∀ label, c.label = .str label →
    ∃ o, Denotes options (p.inside c) o ∧ members.lookup label = some o

/-- The object for a type that is no enumeration is a class, with its methods among its members. -/
theorem Denotes.classOf {options : Options} {p : Place} {o : Object} (h : Denotes options p o)
    (hkind : ∀ values, p.kind ≠ .enumeration values) (hlabels : Labelled p.scope.children) :
    ∃ members, o = .type members ∧ ClassOf options p members := by
  obtain ⟨d, hd, hbinds⟩ := h
  obtain ⟨name, own, nested, hown, hnested, rfl⟩ := declare_type hkind hd
  obtain ⟨fs, rfl, hnames, hreader, hwriter⟩ := methods_ok hown
  have hnested := declareNested_ok hlabels.short hnested
  have hnodup := nodup_members hnames hlabels.nodup hnested
  have hnamed : ∀ d ∈ fs.map Decl.method ++ nested, d.name? ≠ none := by
    intro d hd
    rcases List.mem_append.1 hd with hd | hd
    · obtain ⟨f, -, rfl⟩ := List.mem_map.1 hd
      simp [Decl.name?]
    · obtain ⟨s, -, label, -, hlabel, -⟩ := Outcome.exists_left hnested hd
      simp [hlabel]
  cases hbinds with
  | @type _ _ members hbound =>
    have hown : ∀ f ∈ fs, members.lookup f.name = some (.function f) := by
      intro f hf
      obtain ⟨o, ho, hlookup⟩ := lookup_bindAll hnamed hnodup hbound
        (List.mem_append_left _ (List.mem_map_of_mem hf)) rfl
      cases ho
      exact hlookup
    refine ⟨members, rfl, fun hr => ?_, fun hw => ?_, fun c hc label hlabel => ?_⟩
    · obtain ⟨name, chain, hname, hchain, hread, hfield⟩ := hreader hr
      exact ⟨name, chain, hname, hchain, hown _ hread, hown _ hfield⟩
    · obtain ⟨body, hbody, hwrite⟩ := hwriter hw
      exact ⟨body, hbody, hown _ hwrite⟩
    · obtain ⟨d, hd, label', hlabel', hname, -, hdecl⟩ := Outcome.exists_right hnested hc
      rw [hlabel] at hlabel'
      cases hlabel'
      obtain ⟨o, ho, hlookup⟩ := lookup_bindAll hnamed hnodup hbound (List.mem_append_right _ hd) hname
      exact ⟨o, ⟨d, hdecl, ho⟩, hlookup⟩

/-! ## Modules -/

/-- No type at the top hides a name that methods bind. -/
theorem localNames_subset_reserved (exports : Option String) : localNames ⊆ reservedNames exports := by
  intro id hid
  exact List.mem_append_left _ (List.mem_append_left _ hid)

/-- A top-level type that is declared under its label and can be published under it. -/
def IsTop (s : Scope) : Prop :=
  ∃ label, s.label = .str label ∧ s.name = .str label ∧ s.shortName = .ok label

/-- What loading has bound a top-level type to, in the module and on the object that exports. -/
def TopBound (options : Options) (outer : List Scope) (m : Module) (s : Scope) : Prop :=
  ∃ label o, s.label = .str label ∧ label ∉ reservedNames (some Module.exportsName) ∧
    Denotes options ⟨s, outer⟩ o ∧ m.globals.lookup label = some o ∧ m.exported.lookup label = some o

theorem declareTop_cons {options : Options} {outer rest : List Scope} {s : Scope} {ds : List Decl}
    (hs : IsTop s)
    (h : declareTop options (some Module.exportsName) outer (s :: rest) = .ok ds) :
    ∃ label d ds', s.label = .str label ∧ label ∉ reservedNames (some Module.exportsName) ∧
      declare options outer s = .ok d ∧ d.name? = some label ∧
      declareTop options (some Module.exportsName) outer rest = .ok ds' ∧
      ds = d :: .publish Module.exportsName label :: ds' := by
  obtain ⟨label, hlabel, hname, hshort⟩ := hs
  rw [declareTop] at h
  obtain ⟨⟨⟩, hcheck, h⟩ := Outcome.bind_ok h
  obtain ⟨d, hd, h⟩ := Outcome.bind_ok h
  rw [hname] at h
  obtain ⟨_, hpublished, h⟩ := Outcome.bind_ok h
  cases hpublished
  rw [pure_bind] at h
  obtain ⟨ds', hds', h⟩ := Outcome.bind_ok h
  cases h
  obtain ⟨short, hshort', hdname⟩ := declare_name hd
  rw [hshort] at hshort'
  cases hshort'
  refine ⟨label, d, ds', hlabel, fun hmem => ?_, hd, hdname, hds', rfl⟩
  unfold checkTop at hcheck
  rw [if_pos] at hcheck
  · cases hcheck
  · simpa [hname] using hmem

theorem declare_of_bind {m : Module} {d : Decl} {label : String} (hname : d.name? = some label) :
    m.declare d = (d.bind m.globals).map fun bindings => { m with globals := bindings } := by
  cases d with
  | publish object name => cases hname
  | table _ _ | method _ | type _ _ => rfl

/-- Declaring a type and publishing it. -/
theorem declare_publish {m : Module} {d : Decl} {label : String} {bindings : Bindings}
    (hname : d.name? = some label) (hne : label ≠ Module.exportsName)
    (hexports : m.globals.lookup Module.exportsName = some .exports)
    (hbind : d.bind m.globals = .ok bindings) :
    ∃ o, d.Binds o ∧ ∀ ds, (d :: .publish Module.exportsName label :: ds).foldlM Module.declare m =
      ds.foldlM Module.declare ⟨assign m.globals label o, assign m.exported label o⟩ := by
  obtain ⟨o, ho, rfl⟩ := bind_ok hname hbind
  refine ⟨o, ho, fun ds => ?_⟩
  have hpublish : Module.declare { m with globals := assign m.globals label o }
      (.publish Module.exportsName label) =
        .ok ⟨assign m.globals label o, assign m.exported label o⟩ := by
    simp only [Module.declare, lookup_assign_self, lookup_assign_of_ne _ _ (Ne.symm hne), hexports]
  rw [List.foldlM_cons, declare_of_bind hname, hbind]
  show (Decl.publish Module.exportsName label :: ds).foldlM Module.declare _ = _
  rw [List.foldlM_cons, hpublish]
  rfl

/-- A type that was declared could be bound. -/
theorem exists_bind {m m' : Module} {d : Decl} {label : String} {ds : List Decl}
    (hname : d.name? = some label) (h : (d :: ds).foldlM Module.declare m = .ok m') :
    ∃ bindings, d.bind m.globals = .ok bindings := by
  rw [List.foldlM_cons, declare_of_bind hname] at h
  obtain ⟨m₁, hm₁, -⟩ := Outcome.bind_ok h
  obtain ⟨bindings, hbind, -⟩ := Outcome.map_ok hm₁
  exact ⟨bindings, hbind⟩

/-- Loading binds every top-level type and leaves other names alone. -/
theorem foldlM_declareTop {options : Options} {outer ss : List Scope} {ds : List Decl} {m m' : Module}
    (htop : ∀ s ∈ ss, IsTop s) (hnodup : (ss.map (·.label)).Nodup)
    (hds : declareTop options (some Module.exportsName) outer ss = .ok ds)
    (hexports : m.globals.lookup Module.exportsName = some .exports)
    (h : ds.foldlM Module.declare m = .ok m') :
    (∀ s ∈ ss, TopBound options outer m' s) ∧
      ∀ name, .str name ∉ ss.map (·.label) →
        m'.globals.lookup name = m.globals.lookup name ∧ m'.exported.lookup name = m.exported.lookup name := by
  induction ss generalizing ds m with
  | nil =>
    rw [declareTop] at hds
    cases hds
    cases h
    exact ⟨by simp, fun _ _ => ⟨rfl, rfl⟩⟩
  | cons s rest ih =>
    obtain ⟨label, d, ds', hlabel, hfree, hd, hname, hds', rfl⟩ := declareTop_cons (htop s (by simp)) hds
    have hne : label ≠ Module.exportsName := by
      rintro rfl
      exact hfree (by decide)
    obtain ⟨bindings, hbind⟩ := exists_bind hname h
    obtain ⟨o, ho, heq⟩ := declare_publish hname hne hexports hbind
    rw [heq] at h
    rw [List.map_cons, List.nodup_cons, hlabel] at hnodup
    obtain ⟨hbound, hothers⟩ := ih (fun t ht => htop t (by simp [ht])) hnodup.2 hds'
      (by rw [lookup_assign_of_ne _ _ (Ne.symm hne), hexports]) h
    constructor
    · intro t ht
      rcases List.mem_cons.1 ht with rfl | ht
      -- the types behind this one have other labels and leave it bound
      · obtain ⟨hglobals, hexported⟩ := hothers label hnodup.1
        refine ⟨label, o, hlabel, hfree, ⟨d, hd, ho⟩, ?_, ?_⟩
        · rw [hglobals, lookup_assign_self]
        · rw [hexported, lookup_assign_self]
      · exact hbound t ht
    · intro name hnot
      rw [List.map_cons, List.mem_cons, not_or, hlabel] at hnot
      have hother : name ≠ label := fun heq => hnot.1 (by rw [heq])
      obtain ⟨hglobals, hexported⟩ := hothers name hnot.2
      rw [hglobals, hexported, lookup_assign_of_ne _ _ hother, lookup_assign_of_ne _ _ hother]
      exact ⟨rfl, rfl⟩

/-! ## Paths -/

/-- Looking up a path is looking up its last part in what the rest leads to. -/
theorem find?_append {bindings members : Bindings} {path : List String} (label : String)
    (hne : path ≠ []) (h : Module.find? bindings path = some (.type members)) :
    Module.find? bindings (path ++ [label]) = members.lookup label := by
  induction path generalizing bindings with
  | nil => exact absurd rfl hne
  | cons name rest ih =>
    cases rest with
    | nil =>
      rw [Module.find?] at h
      rw [List.cons_append, List.nil_append, Module.find?, h]
      · rfl
      · simp
    | cons next rest =>
      rw [Module.find?] at h
      · rw [List.cons_append, Module.find?]
        · split at h
          · exact ih (by simp) h
          · cases h
        · simp
      · simp

/-- The places of a module's tree as objects: every type under its path. -/
def FoundAt (options : Options) (m : Module) (path : List String) (p : Place) : Prop :=
  (∀ id, path.head? = some id → id ∉ reservedNames (some Module.exportsName)) ∧
    ∃ o, Denotes options p o ∧ Module.find? m.globals path = some o ∧
      Module.find? m.exported path = some o

/-- Every message of a tree is found under its path, as a class with the functions emitted for it. -/
def Linked (options : Options) (root : Scope) (m : Module) : Prop :=
  ∀ p, Place.Within root p → p.kind = .message → ∃ name members, p.scope.name = .str name ∧
    ClassOf options p members ∧
    (∀ id, (Text.components name).head? = some id → id ∉ localNames) ∧
    Module.find? m.globals (Text.components name) = some (.type members) ∧
    Module.find? m.exported (Text.components name) = some (.type members)

section

variable {s : Schema} {root : Scope} {options : Options} {m : Module}

open Place (At Within)

/-- In a well-named schema, types are labelled by their short names. -/
theorem labelled_of_at (h : s.context = .ok root) (hs : s.wellNamed = true) {path : List String} {p : Place}
    (hp : At root path p) : Labelled p.scope.children := by
  have hspelled := Schema.spelled_of_context h (Schema.named_of_wellNamed hs)
  obtain ⟨hnodup, hnames⟩ := hspelled.labels p hp.within
  refine ⟨hnodup, fun c hc => ?_⟩
  obtain ⟨label, hlabel, -⟩ := hnames c.label (List.mem_map_of_mem hc)
  refine ⟨label, hlabel, ?_⟩
  obtain ⟨name, hname, -, hcomponents⟩ := hspelled.components_name (.child hp hc hlabel) (by simp)
  have hname : c.name = .str name := hname
  simp [Scope.shortName, hname, Value.toText, Except.map, Text.lastComponent, hcomponents]

theorem isTop_of_child (h : s.context = .ok root) (hs : s.wellNamed = true) {c : Scope}
    (hc : c ∈ root.children) : IsTop c := by
  obtain ⟨label, hlabel, hshort⟩ := (labelled_of_at h hs .root).short c hc
  refine ⟨label, hlabel, ?_, hshort⟩
  have hname := (Schema.context_declared h (.child .root hc)).name root [] rfl
  rw [(Schema.context_root h).1] at hname
  exact hname.trans hlabel

/-- Loading binds the types at the top of the tree. -/
theorem topBound_of_ofSchema (hm : Module.ofSchema s options = .ok m) (h : s.context = .ok root)
    (hs : s.wellNamed = true) : ∀ c ∈ root.children, TopBound options [root] m c := by
  obtain ⟨ds, hds, hm⟩ := Outcome.bind_ok hm
  obtain ⟨root', hroot', hds⟩ := Outcome.bind_ok hds
  rw [h] at hroot'
  cases hroot'
  obtain ⟨⟨⟩, -, hm⟩ := Outcome.bind_ok hm
  exact (foldlM_declareTop (fun c => isTop_of_child h hs) (labelled_of_at h hs .root).nodup hds rfl hm).1

/-- A place that declares types is no enumeration. -/
theorem not_enumeration_of_child (h : s.context = .ok root) {p : Place} (hp : Within root p) {c : Scope}
    (hc : c ∈ p.scope.children) (values : List (String × Int)) : p.kind ≠ .enumeration values := by
  intro hkind
  have hmem : c.label ∈ p.scope.labels := List.mem_map_of_mem hc
  cases (Schema.context_declared h hp).declares with
  | root kind labels =>
    rw [Place.kind, kind] at hkind
    cases hkind
  | enumeration values' kind labels =>
    rw [labels] at hmem
    cases hmem
  | message m' mem kind labels fields =>
    rw [Place.kind, kind] at hkind
    cases hkind

/-- Every scope is found in the module at its own path. -/
theorem foundAt_of_at (hm : Module.ofSchema s options = .ok m) (h : s.context = .ok root)
    (hs : s.wellNamed = true) {path : List String} {p : Place} (hp : At root path p) (hne : path ≠ []) :
    FoundAt options m path p := by
  induction hp with
  | root => exact absurd rfl hne
  | @child path p c label hp hc hlabel ih =>
    -- a type at the top is bound by loading, any other one is a member of the class around it
    rcases hp with _ | ⟨hp', hc', hlabel'⟩
    · obtain ⟨label', o, hlabel', hfree, ho, hglobals, hexported⟩ := topBound_of_ofSchema hm h hs c hc
      rw [hlabel] at hlabel'
      cases hlabel'
      refine ⟨?_, o, ho, hglobals, hexported⟩
      rintro id ⟨⟩
      exact hfree
    · have hp : At root _ _ := .child hp' hc' hlabel'
      obtain ⟨hfree, o, ho, hglobals, hexported⟩ := ih (by simp)
      obtain ⟨members, rfl, hclass⟩ := ho.classOf (not_enumeration_of_child h hp.within hc)
        (labelled_of_at h hs hp)
      obtain ⟨oc, hoc, hlookup⟩ := hclass.nested c hc label hlabel
      refine ⟨fun id hid => hfree id ?_, oc, hoc, ?_, ?_⟩
      · rwa [List.head?_append_of_ne_nil _ (by simp)] at hid
      · rw [find?_append label (by simp) hglobals, hlookup]
      · rw [find?_append label (by simp) hexported, hlookup]

/-- Every type is found under its qualified name. -/
theorem foundAt_of_within (hm : Module.ofSchema s options = .ok m) (h : s.context = .ok root)
    (hs : s.wellNamed = true) {p : Place} (hp : Within root p) (hne : p ≠ ⟨root, []⟩) :
    ∃ name, p.scope.name = .str name ∧ At root (Text.components name) p ∧
      FoundAt options m (Text.components name) p := by
  have hspelled := Schema.spelled_of_context h (Schema.named_of_wellNamed hs)
  obtain ⟨path, hpath⟩ := hspelled.exists_at hp
  have hne : path ≠ [] := fun hnil => hne (hpath.eq_root hnil)
  obtain ⟨name, hname, -, rfl⟩ := hspelled.components_name hpath hne
  exact ⟨name, hname, hpath, foundAt_of_at hm h hs hpath hne⟩

theorem ne_root_of_message (h : s.context = .ok root) {p : Place} (hkind : p.kind = .message) :
    p ≠ ⟨root, []⟩ := by
  rintro rfl
  rw [Place.kind, (Schema.context_root h).2] at hkind
  cases hkind

/-- Every message of a well-named schema is linked when its code is loaded. -/
theorem linked_of_ofSchema (hm : Module.ofSchema s options = .ok m) (h : s.context = .ok root)
    (hs : s.wellNamed = true) : Linked options root m := by
  intro p hp hkind
  obtain ⟨name, hname, hat, hfree, o, ho, hglobals, hexported⟩ :=
    foundAt_of_within hm h hs hp (ne_root_of_message h hkind)
  obtain ⟨members, rfl, hclass⟩ := ho.classOf (by rw [hkind]; simp) (labelled_of_at h hs hat)
  refine ⟨name, members, hname, hclass, ?_, hglobals, hexported⟩
  intro id hid hmem
  exact hfree id hid (localNames_subset_reserved _ hmem)

end

end ProtoScribe.Code
