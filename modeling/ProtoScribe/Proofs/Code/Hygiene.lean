import ProtoScribe.Proofs.Code.References
import ProtoScribe.Proofs.Code.Refinement

/-!
# Qualified names in a loaded module

Every type of a well-named schema is declared once in the text of its module (`declaredAt_of_at`), and its
qualified name means what that declaration binds. Functions refer to types by these names. None of the names
that they bind themselves captures one (`reaches_of_callee`), so a function calls the functions of the
messages that its fields embed, and of no others.
-/

namespace ProtoScribe.Code

/-! ## Declarations under a path -/

def Decl.members : Decl → List Decl
  | .type _ members => members
  | .table _ _ | .method _ | .publish _ _ => []

def declared (name : String) (ds : List Decl) : List Decl := ds.filter (·.name? = some name)

def declaredAt (ds : List Decl) : List String → List Decl
  | [] => []
  | [name] => declared name ds
  | name :: rest => declaredAt ((declared name ds).flatMap Decl.members) rest

theorem declaredAt_append (ds : List Decl) {path : List String} (name : String) (h : path ≠ []) :
    declaredAt ds (path ++ [name]) = declared name ((declaredAt ds path).flatMap Decl.members) := by
  induction path generalizing ds with
  | nil => exact absurd rfl h
  | cons first rest ih =>
    cases rest with
    | nil => rfl
    | cons next rest => exact ih _ (by simp)

/-- Where names are told apart, a name is declared once. -/
theorem declared_eq_singleton {ds : List Decl} {d : Decl} {name : String}
    (hnodup : (ds.filterMap Decl.name?).Nodup) (hd : d ∈ ds) (hname : d.name? = some name) :
    declared name ds = [d] := by
  induction ds with
  | nil => cases hd
  | cons first rest ih =>
    rw [declared, List.filter_cons]
    rcases List.mem_cons.1 hd with rfl | hd
    · rw [List.filterMap_cons_some hname, List.nodup_cons] at hnodup
      have hrest : rest.filter (·.name? = some name) = [] := by
        rw [List.filter_eq_nil_iff]
        intro other hother hsame
        exact hnodup.1 (List.mem_filterMap.2 ⟨other, hother, by simpa using hsame⟩)
      rw [if_pos (by simpa using hname), hrest]
    · have hother : first.name? ≠ some name := by
        intro hsame
        rw [List.filterMap_cons_some hsame, List.nodup_cons] at hnodup
        exact hnodup.1 (List.mem_filterMap.2 ⟨d, hd, hname⟩)
      rw [if_neg (by simpa using hother)]
      exact ih (hnodup.sublist ((List.sublist_cons_self first rest).filterMap _)) hd

theorem nodup_names {ds : List Decl} (h : (ds.map Decl.name?).Nodup) : (ds.filterMap Decl.name?).Nodup := by
  have heq : ds.filterMap Decl.name? = (ds.map Decl.name?).filterMap id := by
    rw [List.filterMap_map]
    rfl
  rw [heq]
  apply h.filterMap
  intro a b name ha hb
  exact ha.trans hb.symm

/-- The declarations of top-level types, by their labels. -/
theorem declareTop_ok {options : Options} {outer ss : List Scope} {ds : List Decl}
    (htop : ∀ s ∈ ss, IsTop s)
    (h : declareTop options (some Module.exportsName) outer ss = .ok ds) :
    (ds.filterMap Decl.name?).map Value.str = ss.map (·.label) ∧
      ∀ s ∈ ss, ∃ d ∈ ds, declare options outer s = .ok d := by
  induction ss generalizing ds with
  | nil =>
    rw [declareTop] at h
    cases h
    exact ⟨rfl, by simp⟩
  | cons s rest ih =>
    obtain ⟨label, d, ds', hlabel, -, hd, hname, hds', rfl⟩ := declareTop_cons (htop s (by simp)) h
    obtain ⟨hnames, hrest⟩ := ih (fun t ht => htop t (by simp [ht])) hds'
    constructor
    · rw [List.filterMap_cons_some hname, List.filterMap_cons_none rfl, List.map_cons, hnames,
        List.map_cons, hlabel]
    · intro t ht
      rcases List.mem_cons.1 ht with rfl | ht
      · exact ⟨d, List.mem_cons_self, hd⟩
      · obtain ⟨e, he, hdecl⟩ := hrest t ht
        exact ⟨e, by simp [he], hdecl⟩

theorem declare_ne_method {options : Options} {outer : List Scope} {s : Scope} {d : Decl}
    (h : declare options outer s = .ok d) (f : Function) : d ≠ .method f := by
  obtain ⟨label, name, isTop, kind, fields, children⟩ := s
  rintro rfl
  cases kind with
  | enumeration values =>
    rw [declare] at h
    obtain ⟨short, -, h⟩ := Outcome.bind_ok h
    cases h
  | root | message =>
    rw [declare] at h
    obtain ⟨own, -, h⟩ := Outcome.bind_ok h
    obtain ⟨nested, -, h⟩ := Outcome.bind_ok h
    obtain ⟨short, -, h⟩ := Outcome.bind_ok h
    cases h

/-- The functions inside a declaration are those that were emitted for it. -/
theorem generated_of_mem_members {options : Options} {p : Place} {d : Decl} {f : Function}
    (hlabels : Labelled p.scope.children) (hd : declare options p.outer p.scope = .ok d)
    (hf : .method f ∈ d.members) :
    (∀ values, p.kind ≠ .enumeration values) ∧ Generated options p f := by
  have hkind : ∀ values, p.kind ≠ .enumeration values := by
    intro values hkind
    obtain ⟨⟨label, name, isTop, kind, fields, children⟩, outer⟩ := p
    cases hkind
    rw [declare] at hd
    obtain ⟨short, -, hd⟩ := Outcome.bind_ok hd
    cases hd
    cases hf
  refine ⟨hkind, ?_⟩
  obtain ⟨name, own, nested, hown, hnested, rfl⟩ := declare_type hkind hd
  rcases List.mem_append.1 hf with hf | hf
  · exact generated_of_mem_methods hown hf
  · obtain ⟨c, -, label, -, -, -, hdecl⟩ := Outcome.exists_left (declareNested_ok hlabels.short hnested) hf
    exact absurd rfl (declare_ne_method hdecl f)

section

variable {s : Schema} {root : Scope} {options : Options} {ds : List Decl} {m : Module}

open Place (At Within)

/-- Every type is declared in one place of the text, under its path. -/
theorem declaredAt_of_at (h : s.context = .ok root) (hs : s.wellNamed = true)
    (hds : declareTop options (some Module.exportsName) [root] root.children = .ok ds)
    {path : List String} {p : Place} (hp : At root path p) (hne : path ≠ []) :
    ∃ d, declare options p.outer p.scope = .ok d ∧ declaredAt ds path = [d] := by
  induction hp with
  | root => exact absurd rfl hne
  | @child path p c label hp hc hlabel ih =>
    have hlabelled := labelled_of_at h hs hp
    -- a type at the top is found in the text itself, any other one in the declaration of the type around it
    rcases hp with _ | ⟨hp', hc', hlabel'⟩
    · obtain ⟨hnames, hall⟩ := declareTop_ok (fun c hc => isTop_of_child h hs hc) hds
      obtain ⟨d, hd, hdecl⟩ := hall c hc
      refine ⟨d, hdecl, declared_eq_singleton ?_ hd ?_⟩
      · apply List.Nodup.of_map Value.str
        rw [hnames]
        exact hlabelled.nodup
      · obtain ⟨name, hname, hdname⟩ := declare_name hdecl
        obtain ⟨label', hlabel', hshort⟩ := hlabelled.short c hc
        rw [hlabel] at hlabel'
        cases hlabel'
        rw [hshort] at hname
        cases hname
        exact hdname
    · have hp : At root _ _ := .child hp' hc' hlabel'
      obtain ⟨d, hd, hat⟩ := ih (by simp)
      obtain ⟨name, own, nested, hown, hnested, rfl⟩ :=
        declare_type (not_enumeration_of_child h hp.within hc) hd
      obtain ⟨fs, rfl, hfs, -⟩ := methods_ok hown
      have hnested := declareNested_ok hlabelled.short hnested
      obtain ⟨dc, hdc, label', hlabel', hname, -, hdecl⟩ := Outcome.exists_right hnested hc
      rw [hlabel] at hlabel'
      cases hlabel'
      refine ⟨dc, hdecl, ?_⟩
      rw [declaredAt_append _ _ (by simp), hat, List.flatMap_singleton]
      apply declared_eq_singleton (nodup_names (nodup_members hfs hlabelled.nodup hnested)) _ hname
      exact List.mem_append_right _ hdc

/-! ## References -/

/-- A function reaches another one through its qualified name: the first name is that of a type at the top,
not one that the function or the module uses for something else, and whenever the function runs, it means
what that type was bound to, and the whole means the function that was emitted for the message. -/
structure Reaches (options : Options) (root : Scope) (m : Module) (f : Function)
    (callee : Place × String) : Prop where
  place : callee.1 ∈ root.walk
  message : callee.1.kind = .message
  head : ∃ head o, (Text.components callee.1.scope.name.plain).head? = some head ∧ head ∉ f.locals ∧
    head ∉ reservedNames (some Module.exportsName) ∧
    (∃ c ∈ root.children, c.label = .str head ∧ Denotes options ⟨c, [root]⟩ o) ∧
    ∀ frame call, Arises m.globals f frame → eval m.globals frame call (.name head) = pure o
  function : ∃ own g, methods options callee.1 = .ok own ∧ .method g ∈ own ∧ g.name = callee.2 ∧
    ∀ frame call, Arises m.globals f frame →
      eval m.globals frame call (reference callee) = pure (.function g)

/-- The frames that arise in a generated method bind only names that are reserved. -/
theorem isLocal_of_arises {p : Place} {f : Function} {globals frame : Bindings}
    (hf : Generated options p f) (h : Arises globals f frame) : IsLocal frame :=
  h.bindsOnly.mono hf.locals_subset

/-- The callees of a function are messages of the tree. -/
theorem within_of_mem_callees {p q : Place} {f : Function} {id : String} (hp : Within root p)
    (hkind : p.kind = .message) (hf : Generated options p f) (hq : (q, id) ∈ p.callees f.name) :
    Within root q ∧ q.kind = .message := by
  have hembedded : q ∈ p.embedded p.scope.fields → Within root q ∧ q.kind = .message := by
    intro hq
    obtain ⟨field, -, ht⟩ := Place.mem_embedded hq
    exact hp.target ht
  cases hf with
  | read =>
    cases List.mem_singleton.1 hq
    exact ⟨hp, hkind⟩
  | field | write =>
    obtain ⟨r, hr, heq⟩ := List.mem_map.1 hq
    cases heq
    exact hembedded hr

theorem exists_top_of_at {path : List String} {p : Place} (h : At root path p) {head : String}
    (hhead : path.head? = some head) : ∃ c ∈ root.children, c.label = .str head := by
  induction h with
  | root => cases hhead
  | @child path p c label hp hc hlabel ih =>
    rcases hp with _ | ⟨hp', hc', hlabel'⟩
    · cases hhead
      exact ⟨c, hc, hlabel⟩
    · apply ih
      rwa [List.head?_append_of_ne_nil _ (by simp)] at hhead

/-- Each method that a generated one refers to is reached by its path. -/
theorem reaches_of_callee (hm : Module.ofSchema s options = .ok m) (h : s.context = .ok root)
    (hs : s.wellNamed = true) {p : Place} (hp : Within root p) (hkind : p.kind = .message) {f : Function}
    (hf : Generated options p f) {callee : Place × String} (hcallee : callee ∈ p.callees f.name) :
    Reaches options root m f callee := by
  obtain ⟨q, id⟩ := callee
  obtain ⟨hq, hmessage⟩ := within_of_mem_callees hp hkind hf hcallee
  obtain ⟨name, hname, hat, hfree, o, ho, hglobals, -⟩ :=
    foundAt_of_within hm h hs hq (ne_root_of_message h hmessage)
  have hplain : q.scope.name.plain = name := by
    rw [hname]
    rfl
  have hlocal : ∀ id, (Text.components name).head? = some id → id ∉ localNames := by
    intro id hid hmem
    exact hfree id hid (localNames_subset_reserved _ hmem)
  refine ⟨Scope.mem_walk_iff.2 hq, hmessage, ?_, ?_⟩
  · obtain ⟨head, rest, hcomponents⟩ := List.exists_cons_of_ne_nil (Text.components_ne_nil name)
    have hhead : (Text.components name).head? = some head := by
      rw [hcomponents]
      rfl
    obtain ⟨c, hc, hlabel⟩ := exists_top_of_at hat hhead
    obtain ⟨label, o, hlabel', -, ho, hlookup, -⟩ := topBound_of_ofSchema hm h hs c hc
    rw [hlabel] at hlabel'
    cases hlabel'
    refine ⟨head, o, by rw [hplain, hhead], ?_, hfree head hhead, ⟨c, hc, hlabel, ho⟩, ?_⟩
    · intro hmem
      exact hlocal head hhead (hf.locals_subset hmem)
    · intro frame call harises
      exact means_name (hlocal head hhead) hlookup frame call (isLocal_of_arises hf harises)
  · have hclass : ∀ values, q.kind ≠ .enumeration values := by simp [hmessage]
    obtain ⟨members, rfl, hmembers⟩ := ho.classOf hclass (labelled_of_at h hs hat)
    obtain ⟨d, hd, -⟩ := ho
    obtain ⟨_, own, nested, hown, -⟩ := declare_type hclass hd
    obtain ⟨g, hg, rfl⟩ := hf.exists_callee hcallee hown
    have hlookup := hmembers.lookup_generated (generated_of_mem_methods hown hg)
    refine ⟨own, g, hown, hg, rfl, ?_⟩
    intro frame call harises
    rw [reference, hplain]
    exact (means_path hlocal hglobals).attr hlookup frame call (isLocal_of_arises hf harises)

/-- Loading the code of a well-named schema gives every type its qualified name: the name means what the one
declaration of the type binds. The functions in that declaration refer to functions of messages and to
nothing else, to those that their fields need, and they reach them whenever they run; for each field of a
message type they call the reader and the writer of the message that its type was resolved to. -/
theorem qualified_names_reach_types (hs : s.wellNamed = true) (hm : Module.ofSchema s options = .ok m) :
    ∃ root ds, s.context = .ok root ∧ s.code options (some Module.exportsName) = .ok ds ∧
      Module.load ds = .ok m ∧
      ∀ p ∈ root.walk, p.outer ≠ [] → ∃ name d o, p.scope.name = .str name ∧
        declare options p.outer p.scope = .ok d ∧ declaredAt ds (Text.components name) = [d] ∧
        d.Binds o ∧ (∀ call, eval m.globals [] call (path name) = pure o) ∧
        ∀ f, .method f ∈ d.members → f.references = (p.callees f.name).map reference ∧
          (∀ callee ∈ p.callees f.name, Reaches options root m f callee) ∧
          ∀ field ∈ p.scope.fields, ∀ q, p.target field = .ok (.message q) → f.Serves field q := by
  obtain ⟨ds, hds, hload⟩ := Outcome.bind_ok hm
  obtain ⟨root, h, htop⟩ := Outcome.bind_ok hds
  refine ⟨root, ds, h, hds, hload, ?_⟩
  intro p hp houter
  have hp := Scope.mem_walk_iff.1 hp
  have hne : p ≠ ⟨root, []⟩ := by
    rintro rfl
    exact houter rfl
  obtain ⟨name, hname, hat, hfree, o, ⟨d, hd, hbinds⟩, hglobals, -⟩ := foundAt_of_within hm h hs hp hne
  obtain ⟨d', hd', hdeclared⟩ := declaredAt_of_at h hs htop hat (Text.components_ne_nil name)
  rw [hd] at hd'
  cases hd'
  refine ⟨name, d, o, hname, hd, hdeclared, hbinds, ?_, ?_⟩
  · intro call
    apply means_path ?_ hglobals [] call isLocal_nil
    intro id hid hmem
    exact hfree id hid (localNames_subset_reserved _ hmem)
  · intro f hf
    obtain ⟨hclass, hf⟩ := generated_of_mem_members (labelled_of_at h hs hat) hd hf
    have hkind : p.kind = .message := by
      cases hkind : p.kind with
      | root => exact absurd hkind ((Schema.context_declared h hp).inner houter)
      | enumeration values => exact absurd hkind (hclass values)
      | message => rfl
    have hreaches : ∀ callee ∈ p.callees f.name, Reaches options root m f callee :=
      fun callee hcallee => reaches_of_callee hm h hs hp hkind hf hcallee
    refine ⟨hf.references_eq ?_, hreaches, fun field hfield q hq => hf.serves hfield hq⟩
    intro callee hcallee id hid hmem
    obtain ⟨head, -, hhead, -, hreserved, -⟩ := (hreaches callee hcallee).head
    rw [hhead] at hid
    cases hid
    exact hreserved (localNames_subset_reserved _ hmem)

/-- A message named like a function, with a type inside it that hides one at the top; its fields embed all
three. -/
def homonymSchema : Schema where
  version := .proto3
  package := .none
  enums := []
  messages := [
    { name := .str "read"
      fields := [
        { name := .str "whole", type := .str "read", tag := 1 },
        { name := .str "near", type := .str "Part", tag := 2, repeated := true },
        { name := .str "far", type := .str ".Part", tag := 3 }]
      enums := []
      messages := [⟨.str "Part", [{ name := .str "back", type := .str "read", tag := 1 }], [], []⟩] },
    ⟨.str "Part", [], [], []⟩]

/-- Whether a message is inside another scope and its writer calls functions of the given qualified names. -/
def callsWriters (names : List String) (p : Place) : Bool :=
  !p.outer.isEmpty &&
    (p.callees "write").map (fun callee => (callee.1.scope.name.plain, callee.2)) = names.map (·, "write")

/-- Types that are named like methods and like each other, at different depths, are still reached. -/
theorem homonyms_are_told_apart : ∃ m p root d f, Compiled homonymSchema {} m p "read" ∧
    homonymSchema.context = .ok root ∧ declare {} p.outer p.scope = .ok d ∧ .method f ∈ d.members ∧
    f.references = [.attr (path "read") "write", .attr (path "read.Part") "write",
      .attr (path "Part") "write"] ∧ ∀ callee ∈ p.callees "write", Reaches {} root m f callee := by
  obtain ⟨m, p, h, hcalls⟩ : ∃ m p, Compiled homonymSchema {} m p "read" ∧
      callsWriters ["read", "read.Part", "Part"] p = true :=
    exists_compiled (callsWriters ["read", "read.Part", "Part"]) (by decide +kernel) (by decide +kernel)
      (by decide +kernel)
  obtain ⟨houter, hnames⟩ := (Bool.and_eq_true _ _).mp hcalls
  obtain ⟨root, ds, hroot, -, -, hall⟩ := qualified_names_reach_types h.named h.loaded
  obtain ⟨root', hroot', hp⟩ := h.within
  rw [hroot] at hroot'
  cases hroot'
  obtain ⟨name, d, o, -, hd, -, -, -, hfunctions⟩ := hall p hp (by simpa using houter)
  obtain ⟨_, own, nested, hown, -, rfl⟩ := declare_type (by simp [h.isMessage]) hd
  obtain ⟨fs, rfl, -, -, hwriter⟩ := methods_ok hown
  obtain ⟨body, -, hbody⟩ := hwriter rfl
  have hmem : Decl.method (writeFunction body) ∈ fs.map Decl.method ++ nested :=
    List.mem_append_left _ (List.mem_map_of_mem hbody)
  obtain ⟨hreferences, hreaches, -⟩ := hfunctions _ hmem
  refine ⟨m, p, root, _, writeFunction body, h, hroot, hd, hmem, ?_, hreaches⟩
  have heq : (p.callees "write").map reference = ((p.callees "write").map
      fun callee => (callee.1.scope.name.plain, callee.2)).map fun callee => .attr (path callee.1) callee.2 := by
    rw [List.map_map]
    rfl
  rw [hreferences]
  show (p.callees "write").map reference = _
  rw [heq, of_decide_eq_true hnames]
  rfl

end

end ProtoScribe.Code
