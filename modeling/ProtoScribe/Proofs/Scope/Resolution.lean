import Mathlib.Data.List.Infix
import ProtoScribe.Proofs.Scope.Paths

/-!
# References by qualified names

A reference is resolved by walking: from a place to the places around it, and from each of them down the
components of the reference. On a tree whose types are told apart by their names this comes to a rule on
qualified names alone (`Scope.resolveByName`): put the reference behind the path of the place, then behind
each shorter prefix of the path, and take the first of these names that a type has. `Spelled.resolve_eq`
proves the two equal for every place of the tree and every reference, also those with empty components.

The induction is on the path of the place. One step outward drops the last name of the path on one side
and goes on to the next prefix on the other (`Spelled.findSome?_chain`).

The rule picks out a type because names are distinct (`Spelled.nodup_names`). With this,
`Schema.references_mean_longest_match` says what every reference in a schema means.
-/

namespace ProtoScribe

namespace Text

/-- The dotted name that has some components. -/
def dotted : List String → String
  | [] => ""
  | [name] => name
  | name :: rest => name ++ "." ++ dotted rest

/-- A reference behind names without dots has these names as its first components. -/
theorem components_dotted {front : List String} (h : ∀ name ∈ front, '.' ∉ name.toList)
    (reference : String) :
    components (dotted (front ++ [reference])) = front ++ components reference := by
  induction front with
  | nil => rfl
  | cons name front ih =>
    rw [List.forall_mem_cons] at h
    have hdotted : dotted (name :: front ++ [reference]) =
        name ++ "." ++ dotted (front ++ [reference]) := by
      cases front <;> rfl
    rw [hdotted, components_join, components_of_notMem h.1, ih h.2]
    rfl

end Text

/-! ## Resolution by qualified names -/

namespace Scope

/-- The components of a qualified name; that of the root has none. -/
def pathOf : Value → List String
  | .str name => if name = "" then [] else Text.components name
  | _ => []

/-- The type that is declared under a qualified name. The root is not declared. -/
def named? (root : Scope) (name : String) : Option Place :=
  root.walk.find? fun q => !q.outer.isEmpty && q.scope.name = .str name

/-- The type that a reference means by qualified names: what stands behind a leading dot is such a name;
anything else is one behind the longest prefix of the path of the place that makes it the name of a
type. -/
def resolveByName (root : Scope) (p : Place) (reference : String) : Option Place :=
  match reference.toList with
  | '.' :: rest => root.named? (String.ofList rest)
  | _ => (pathOf p.scope.name).inits.reverse.findSome? fun front =>
    root.named? (Text.dotted (front ++ [reference]))

end Scope

open Place (At Within)

namespace Place

variable {root : Scope} {p : Place} {path : List String}

/-- A single name is looked up as a reference is. -/
theorem lookup_eq (p : Place) {name : String} (hdot : '.' ∉ name.toList) :
    p.lookup name = p.resolve name := by
  have hstart : ∀ rest, name.toList ≠ '.' :: rest := by
    rintro rest hrest
    rw [hrest] at hdot
    simp at hdot
  unfold lookup resolve
  split
  · next rest hrest => exact absurd hrest (hstart rest)
  · rw [Text.components_of_notMem hdot]
    congr 1
    funext q
    simp [descend]

/-- Every place but the root has scopes around it. -/
theorem Within.outer_ne_nil_iff (h : Within root p) : p.outer ≠ [] ↔ p ≠ ⟨root, []⟩ := by
  cases h with
  | root => simp
  | child hp hs => simp [inside]

theorem At.names_dotFree (h : root.Spelled) (hp : At root path p) : ∀ name ∈ path, '.' ∉ name.toList := by
  induction hp with
  | root => simp
  | @child path p s label hp hs hlabel ih =>
    intro name hname
    rcases List.mem_append.1 hname with hname | hname
    · exact ih name hname
    · obtain ⟨label', hlabel', -, hdot⟩ := (h.labels p hp.within).text s.label (List.mem_map_of_mem hs)
      rw [hlabel] at hlabel'
      cases hlabel'
      rwa [List.mem_singleton.1 hname]

end Place

namespace Scope.Spelled

variable {root : Scope} {p q : Place} {path : List String}

theorem path_eq (h : root.Spelled) (hp : At root path p) : pathOf p.scope.name = path := by
  cases path with
  | nil =>
    rw [hp.eq_root rfl, h.top]
    rfl
  | cons label rest =>
    obtain ⟨name, hname, hne, hcomponents⟩ := h.components_name hp (by simp)
    rw [hname, pathOf, if_neg hne, hcomponents]

/-- Looking up a qualified name is descending along its components. -/
theorem named?_eq (h : root.Spelled) (name : String) :
    root.named? name = Place.descend ⟨root, []⟩ (Text.components name) := by
  have hiff : ∀ q, Within root q →
      ((!q.outer.isEmpty && q.scope.name = .str name) = true ↔ At root (Text.components name) q) := by
    intro q hq
    rw [h.at_components_iff hq, ← hq.outer_ne_nil_iff]
    simp
  rw [named?]
  cases hfind : root.walk.find? fun q => !q.outer.isEmpty && q.scope.name = .str name with
  | some q =>
    have hq := mem_walk_iff.1 (List.mem_of_find?_eq_some hfind)
    have hfound : (!q.outer.isEmpty && q.scope.name = .str name) = true := by
      simpa using List.find?_some hfind
    have hat := (hiff q hq).1 hfound
    exact (h.descend_eq_some_iff.2 hat).symm
  | none =>
    -- a place that descending found would have been found in the walk
    symm
    rw [Option.eq_none_iff_forall_ne_some]
    intro q hq
    have hat := h.descend_eq_some_iff.1 hq
    exact List.find?_eq_none.1 hfind q (mem_walk_iff.2 hat.within) ((hiff q hat.within).2 hat)

/-- The type of a reference behind a path is found by descending from the end of the path. -/
theorem named?_dotted (h : root.Spelled) (hp : At root path p) (reference : String) :
    root.named? (Text.dotted (path ++ [reference])) = p.descend (Text.components reference) := by
  have hself : Place.descend ⟨root, []⟩ path = some p := h.descend_eq_some_iff.2 hp
  rw [h.named?_eq, Text.components_dotted (hp.names_dotFree h), Place.descend_append, hself,
    Option.bind_some]

/-- Going outward drops the last name of the path: the places around a place have the prefixes of its
path, the longest first. -/
theorem findSome?_chain (h : root.Spelled) (hp : At root path p) (reference : String) :
    p.chain.findSome? (·.descend (Text.components reference)) =
      path.inits.reverse.findSome? fun front => root.named? (Text.dotted (front ++ [reference])) := by
  induction hp with
  | root =>
    have hchain : (⟨root, []⟩ : Place).chain = [⟨root, []⟩] := rfl
    have hinits : ([] : List String).inits.reverse = [[]] := rfl
    rw [hchain, hinits, List.findSome?_cons, List.findSome?_cons, h.named?_dotted .root]
    rfl
  | @child path p s name hp hs hlabel ih =>
    have hchain : (p.inside s).chain = p.inside s :: p.chain := rfl
    have hinits : (path ++ [name]).inits.reverse = (path ++ [name]) :: path.inits.reverse := by
      simp [List.inits_append]
    rw [hchain, hinits, List.findSome?_cons, List.findSome?_cons, ih,
      h.named?_dotted (.child hp hs hlabel)]

/-- Resolving a reference outward, scope by scope, is resolving it by qualified names. -/
theorem resolve_eq (h : root.Spelled) (hp : Within root p) (reference : String) :
    p.resolve reference = root.resolveByName p reference := by
  obtain ⟨path, hat⟩ := h.exists_at hp
  by_cases hdot : ∃ rest, reference.toList = '.' :: rest
  · obtain ⟨rest, hrest⟩ := hdot
    have houtward : p.resolve reference = p.top.descend (Text.components (String.ofList rest)) := by
      simp only [Place.resolve, hrest]
    have hnamed : root.resolveByName p reference = root.named? (String.ofList rest) := by
      simp only [resolveByName, hrest]
    rw [houtward, hnamed, hp.top_eq, h.named?_eq]
  · have houtward : p.resolve reference = p.chain.findSome? (·.descend (Text.components reference)) := by
      unfold Place.resolve
      split
      · next rest hrest => exact absurd ⟨rest, hrest⟩ hdot
      · rfl
    have hnamed : root.resolveByName p reference = (pathOf p.scope.name).inits.reverse.findSome? fun front =>
        root.named? (Text.dotted (front ++ [reference])) := by
      unfold resolveByName
      split
      · next rest hrest => exact absurd ⟨rest, hrest⟩ hdot
      · rfl
    rw [houtward, hnamed, h.path_eq hat]
    exact h.findSome?_chain hat reference

/-! ## Distinct names

The paths of the places below a scope start with the path of the scope, and those below different
children go on with different labels. So no path comes twice in a walk. -/

mutual

theorem prefix_of_mem_places (h : root.Spelled) : ∀ (s : Scope) {outer : List Scope} {path : List String},
    At root path ⟨s, outer⟩ → ∀ q ∈ s.places outer, path <+: pathOf q.scope.name
  | ⟨label, name, isTop, kind, fields, children⟩, outer, path, hs, q, hq => by
    rw [places] at hq
    rcases List.mem_cons.1 hq with rfl | hq
    · rw [h.path_eq hs]
    · obtain ⟨c, -, l, -, hprefix⟩ := prefix_of_mem_placesOf h children hs (fun _ hc => hc) q hq
      exact (List.prefix_append path [l]).trans hprefix

theorem prefix_of_mem_placesOf (h : root.Spelled) : ∀ (ss : List Scope) {p : Place} {path : List String},
    At root path p → (∀ c ∈ ss, c ∈ p.scope.children) → ∀ q ∈ placesOf (p.scope :: p.outer) ss,
    ∃ c ∈ ss, ∃ l, c.label = .str l ∧ path ++ [l] <+: pathOf q.scope.name
  | [], _, _, _, _, q, hq => by
    rw [placesOf] at hq
    cases hq
  | c :: rest, p, path, hp, hss, q, hq => by
    rw [placesOf] at hq
    rw [List.forall_mem_cons] at hss
    rcases List.mem_append.1 hq with hq | hq
    · obtain ⟨l, hl, -⟩ := (h.labels p hp.within).text c.label (List.mem_map_of_mem hss.1)
      exact ⟨c, by simp, l, hl, prefix_of_mem_places h c (.child hp hss.1 hl) q hq⟩
    · obtain ⟨c', hc', hprefix⟩ := prefix_of_mem_placesOf h rest hp hss.2 q hq
      exact ⟨c', by simp [hc'], hprefix⟩

end

mutual

theorem nodup_places (h : root.Spelled) : ∀ (s : Scope) {outer : List Scope} {path : List String},
    At root path ⟨s, outer⟩ → ((s.places outer).map fun p => pathOf p.scope.name).Nodup
  | ⟨label, name, isTop, kind, fields, children⟩, outer, path, hs => by
    have hchildren := nodup_placesOf h children hs (fun _ hc => hc) (h.labels _ hs.within).nodup
    rw [places, List.map_cons, List.nodup_cons]
    refine ⟨?_, hchildren⟩
    intro hmem
    obtain ⟨q, hq, hpath⟩ := List.mem_map.1 hmem
    obtain ⟨c, -, l, -, hprefix⟩ := prefix_of_mem_placesOf h children hs (fun _ hc => hc) q hq
    -- the path of the scope would have its own extension as a prefix
    rw [hpath, h.path_eq hs] at hprefix
    have hlength := hprefix.length_le
    simp only [List.length_append, List.length_singleton] at hlength
    omega

theorem nodup_placesOf (h : root.Spelled) : ∀ (ss : List Scope) {p : Place} {path : List String},
    At root path p → (∀ c ∈ ss, c ∈ p.scope.children) → (ss.map (·.label)).Nodup →
    ((placesOf (p.scope :: p.outer) ss).map fun p => pathOf p.scope.name).Nodup
  | [], _, _, _, _, _ => by
    rw [placesOf]
    exact List.nodup_nil
  | c :: rest, p, path, hp, hss, hlabels => by
    rw [List.map_cons, List.nodup_cons] at hlabels
    rw [List.forall_mem_cons] at hss
    obtain ⟨l, hl, -⟩ := (h.labels p hp.within).text c.label (List.mem_map_of_mem hss.1)
    have hc : At root (path ++ [l]) (p.inside c) := .child hp hss.1 hl
    rw [placesOf, List.map_append, List.nodup_append]
    refine ⟨nodup_places h c hc, nodup_placesOf h rest hp hss.2 hlabels.2, ?_⟩
    intro a ha b hb hab
    obtain ⟨q, hq, rfl⟩ := List.mem_map.1 ha
    obtain ⟨r, hr, rfl⟩ := List.mem_map.1 hb
    obtain ⟨c', hc', l', hl', hprefix'⟩ := prefix_of_mem_placesOf h rest hp hss.2 r hr
    have hprefix := prefix_of_mem_places h c hc q hq
    -- both paths go on with the same label, which only one of the children has
    rw [hab] at hprefix
    have hsame := List.prefix_of_prefix_length_le hprefix hprefix' (by simp)
    have hlabel : l = l' := by
      have heq := hsame.eq_of_length (by simp)
      simpa using heq
    apply hlabels.1
    rw [hl, hlabel, ← hl']
    exact List.mem_map_of_mem hc'

end

/-- No two types of a tree have the same qualified name. -/
theorem nodup_names (h : root.Spelled) : (root.walk.map (·.scope.name)).Nodup := by
  have hpaths : ((root.walk.map (·.scope.name)).map pathOf).Nodup := by
    rw [List.map_map]
    exact h.nodup_places root .root
  exact hpaths.of_map _

end Scope.Spelled

namespace Schema

theorem Named.exists_tree {s : Schema} (hs : s.Named) : ∃ root, Scope.ofSchema s = .ok root := by
  have hkeys : ∀ {names : List Value}, Value.AreNames names → ∀ v ∈ names, v.isKey = true := by
    intro names hnames v hv
    obtain ⟨name, rfl, -⟩ := hnames.text v hv
    rfl
  apply Scope.exists_ofSchema
  · exact hkeys hs.top
  · intro m hm
    exact hkeys (hs.nested m hm)

/-- In a schema whose types are told apart by their names, no two types have the same qualified name,
and a reference means the type with the longest qualified name that it can be read as. Looking up a
single name is no different. -/
theorem references_mean_longest_match {s : Schema} (hs : s.Named) :
    ∃ root, Scope.ofSchema s = .ok root ∧ (root.walk.map (·.scope.name)).Nodup ∧
      ∀ p ∈ root.walk, ∀ reference, p.resolve reference = root.resolveByName p reference ∧
        ('.' ∉ reference.toList → p.lookup reference = p.resolve reference) := by
  obtain ⟨root, hroot⟩ := hs.exists_tree
  have hspelled := spelled_of_ofSchema hroot hs
  refine ⟨root, hroot, hspelled.nodup_names, ?_⟩
  intro p hp reference
  refine ⟨hspelled.resolve_eq (Scope.mem_walk_iff.1 hp) reference, ?_⟩
  intro hdot
  exact p.lookup_eq hdot

/-- A type `C` inside `A` hides the type `C` at the top, but it has no `D` inside. -/
def hidingSchema : Schema where
  version := .proto3
  package := .none
  enums := []
  messages := [
    ⟨.str "A", [], [], [⟨.str "B", [], [], []⟩, ⟨.str "C", [], [], []⟩]⟩,
    ⟨.str "C", [], [⟨.str "D", [("ZERO", 0)]⟩], []⟩]

/-- Whether a reference means a type by qualified names, seen from another type. -/
def findsByName (s : Schema) (place reference found : String) : Bool :=
  match Scope.ofSchema s with
  | .ok root => root.walk.any fun p => p.scope.name = .str place &&
    (root.resolveByName p reference).any (·.scope.name = .str found)
  | .error _ => false

theorem of_findsByName {s : Schema} {root : Scope} (hroot : Scope.ofSchema s = .ok root)
    {place reference found : String} (h : findsByName s place reference found = true) :
    ∃ p ∈ root.walk, p.scope.name = .str place ∧
      ∃ q, root.resolveByName p reference = some q ∧ q.scope.name = .str found := by
  unfold findsByName at h
  rw [hroot] at h
  obtain ⟨p, hp, hfound⟩ := List.any_eq_true.1 h
  rw [Bool.and_eq_true, decide_eq_true_eq] at hfound
  obtain ⟨q, hq, hname⟩ := (Option.any_eq_true _ _).1 hfound.2
  exact ⟨p, hp, hfound.1, q, hq, of_decide_eq_true hname⟩

/-- The reference to `C.D` passes over the nearer `C`. -/
theorem hidden_reference_falls_back : hidingSchema.Named ∧ ∃ root p q,
    Scope.ofSchema hidingSchema = .ok root ∧ p ∈ root.walk ∧ p.scope.name = .str "A.B" ∧
    p.resolve "C.D" = some q ∧ q.scope.name = .str "C.D" := by
  have hs : hidingSchema.Named := named_of_wellNamed (by decide)
  obtain ⟨root, hroot, -, hmeaning⟩ := references_mean_longest_match hs
  have hfinds : findsByName hidingSchema "A.B" "C.D" "C.D" = true := by decide +kernel
  obtain ⟨p, hp, hname, q, hq, hfound⟩ := of_findsByName hroot hfinds
  refine ⟨hs, root, p, q, hroot, hp, hname, ?_, hfound⟩
  rw [(hmeaning p hp "C.D").1, hq]

end Schema

end ProtoScribe
