import Mathlib.Data.List.Nodup
import ProtoScribe.Proofs.Scope.Names

/-!
# Paths to types

In a tree whose types are told apart by their names (`Scope.Spelled`) every type is found by one path of
names from the root, and descending along a path finds it (`Spelled.descend_eq_some_iff`). Its qualified
name is that path joined by dots, and the components of the name give the path back
(`Spelled.components_name`). So a reference with a leading dot means the type whose qualified name stands
behind the dot (`Spelled.resolve_anchored`).

The trees of schemas are of this kind, before and after defaults are attached.
-/

namespace ProtoScribe

/-! ## Components -/

namespace Text

/-- Joining the components by dots gives the name back. -/
theorem intercalate_splitDots (cs : List Char) : ['.'].intercalate (splitDots cs) = cs := by
  induction cs with
  | nil => rfl
  | cons c cs ih =>
    rw [splitDots]
    cases hsplit : splitDots cs with
    | nil => exact absurd hsplit (splitDots_ne_nil cs)
    | cons word words =>
      rw [hsplit] at ih
      split
      · next hdot => simpa [List.intercalate, hdot] using ih
      · cases words with
        | nil => simpa [List.intercalate] using ih
        | cons next words => simpa [List.intercalate] using ih

/-- Different names have different components. -/
theorem components_injective : Function.Injective components := by
  intro a b h
  have hchars : ∀ s, (components s).map String.toList = splitDots s.toList := by
    intro s
    simp [components, Function.comp_def]
  have hsplit : splitDots a.toList = splitDots b.toList := by rw [← hchars, ← hchars, h]
  apply String.toList_injective
  rw [← intercalate_splitDots a.toList, hsplit, intercalate_splitDots]

theorem components_ne_nil (s : String) : components s ≠ [] := by
  simpa [components] using splitDots_ne_nil s.toList

end Text

/-! ## Places by path -/

namespace Place

/-- The places of a tree with the names that lead to them from the root. -/
inductive At (root : Scope) : List String → Place → Prop
  | root : At root [] ⟨root, []⟩
  | child {path : List String} {p : Place} {s : Scope} {name : String} : At root path p →
    s ∈ p.scope.children → s.label = .str name → At root (path ++ [name]) (p.inside s)

variable {root : Scope} {path : List String} {p q : Place}

theorem At.within (h : At root path p) : Within root p := by
  induction h with
  | root => exact .root
  | child _ hs _ ih => exact .child ih hs

theorem At.eq_root (h : At root path p) (hpath : path = []) : p = ⟨root, []⟩ := by
  cases h with
  | root => rfl
  | child _ _ _ => simp at hpath

/-- Every place of a tree has the same root above it. -/
theorem Within.top_eq (h : Within root p) : p.top = ⟨root, []⟩ := by
  have hlast : p.chain.getLast? = some ⟨root, []⟩ := by
    induction h with
    | root => rfl
    | @child p s hp hs ih =>
      have hchain : (p.inside s).chain = p.inside s :: p.chain := rfl
      rw [hchain, List.getLast?_cons, ih]
      rfl
  rw [Place.top, hlast]
  rfl

theorem descend_append (p : Place) (front path : List String) :
    p.descend (front ++ path) = (p.descend front).bind (·.descend path) := by
  induction front generalizing p with
  | nil => rfl
  | cons name front ih =>
    rw [List.cons_append, descend, descend, Option.bind_assoc]
    congr 1
    funext q
    exact ih q

/-- Descending leads to a place with the path that was taken. -/
theorem At.descend {front : List String} (hp : At root front p) (h : p.descend path = some q) :
    At root (front ++ path) q := by
  induction path generalizing front p with
  | nil =>
    cases h
    rwa [List.append_nil]
  | cons name path ih =>
    obtain ⟨r, hr, hq⟩ := Option.bind_eq_some_iff.1 h
    obtain ⟨s, hs, rfl⟩ := Option.map_eq_some_iff.1 hr
    have hlabel : s.label = .str name := by simpa using List.find?_some hs
    have hmem : s ∈ p.scope.children := List.mem_reverse.1 (List.mem_of_find?_eq_some hs)
    have hstep := ih (.child hp hmem hlabel) hq
    rwa [List.append_assoc] at hstep

end Place

/-! ## Trees with names -/

open Place (At Within)

/-- A tree whose types are told apart by their names and qualified by the names around them. -/
structure Scope.Spelled (root : Scope) : Prop where
  top : root.name = .str ""
  labels : ∀ p, Within root p → Value.AreNames p.scope.labels
  qualified : ∀ p o outer, Within root p → p.outer = o :: outer →
    p.scope.name = (Scope.qualify o.name p.scope.label).1

namespace Scope.Spelled

variable {root : Scope} {p q : Place}

theorem exists_at (h : root.Spelled) (hp : Within root p) : ∃ path, At root path p := by
  induction hp with
  | root => exact ⟨[], .root⟩
  | @child p c hp hc ih =>
    obtain ⟨path, hpath⟩ := ih
    obtain ⟨name, hname, -⟩ := (h.labels p hp).text c.label (List.mem_map_of_mem hc)
    exact ⟨path ++ [name], .child hpath hc hname⟩

/-- Of types declared side by side only one has a given name, so it is the one that is found. -/
theorem child?_of_mem (h : root.Spelled) (hp : Within root p) {s : Scope} {name : String}
    (hs : s ∈ p.scope.children) (hlabel : s.label = .str name) : p.child? name = some (p.inside s) := by
  have hfound : p.scope.child? name = some s := by
    rw [Scope.child?]
    cases hfind : p.scope.children.reverse.find? (·.label = .str name) with
    | none =>
      have hnone := List.find?_eq_none.1 hfind s (List.mem_reverse.2 hs)
      simp [hlabel] at hnone
    | some t =>
      have ht : t ∈ p.scope.children := List.mem_reverse.1 (List.mem_of_find?_eq_some hfind)
      have htlabel : t.label = .str name := by simpa using List.find?_some hfind
      have hsame := List.inj_on_of_nodup_map (h.labels p hp).nodup ht hs (htlabel.trans hlabel.symm)
      rw [hsame]
  rw [Place.child?, hfound]
  rfl

/-- Descending from the root finds exactly the place that a path leads to. -/
theorem descend_eq_some_iff (h : root.Spelled) {path : List String} :
    Place.descend ⟨root, []⟩ path = some q ↔ At root path q := by
  constructor
  · intro hq
    exact At.root.descend hq
  · intro hq
    induction hq with
    | root => rfl
    | @child path p s name hp hs hlabel ih =>
      rw [Place.descend_append, ih, Option.bind_some, Place.descend, h.child?_of_mem hp.within hs hlabel]
      rfl

/-- The components of a qualified name are the path to the type. -/
theorem components_name (h : root.Spelled) {path : List String} (hp : At root path p)
    (hne : path ≠ []) :
    ∃ name, p.scope.name = .str name ∧ name ≠ "" ∧ Text.components name = path := by
  induction hp with
  | root => exact absurd rfl hne
  | @child path p c label hp hc hlabel ih =>
    obtain ⟨l, hl, hlne, hdot⟩ := (h.labels p hp.within).text c.label (List.mem_map_of_mem hc)
    rw [hlabel] at hl
    cases hl
    have hname := h.qualified _ p.scope p.outer (.child hp.within hc) rfl
    have hcomponents := Text.components_of_notMem hdot
    rcases hp with _ | ⟨hp, hc', hlabel'⟩
    · refine ⟨label, ?_, hlne, hcomponents⟩
      rw [hname, h.top]
      exact hlabel
    · obtain ⟨outer, houter, houterne, hpath⟩ := ih (by simp)
      refine ⟨outer ++ "." ++ label, ?_, by simp, ?_⟩
      · rw [hname, houter]
        show (Scope.qualify (.str outer) c.label).1 = _
        rw [hlabel, Scope.qualify, if_pos (by simpa [Value.truthy] using houterne)]
        rfl
      · rw [Text.components_join, hpath, hcomponents]

/-- The path that a qualified name spells leads to the type of that name. -/
theorem at_components_iff (h : root.Spelled) (hq : Within root q) {name : String} :
    At root (Text.components name) q ↔ q ≠ ⟨root, []⟩ ∧ q.scope.name = .str name := by
  constructor
  · intro hat
    obtain ⟨name', hname', -, hcomponents⟩ := h.components_name hat (Text.components_ne_nil name)
    cases Text.components_injective hcomponents
    refine ⟨?_, hname'⟩
    rintro rfl
    generalize hpath : Text.components name = path at hat
    cases hat
    exact Text.components_ne_nil name hpath
  · rintro ⟨hne, hname⟩
    obtain ⟨path, hat⟩ := h.exists_at hq
    have hpath : path ≠ [] := fun hnil => hne (hat.eq_root hnil)
    obtain ⟨name', hname', -, rfl⟩ := h.components_name hat hpath
    rw [hname] at hname'
    cases hname'
    exact hat

/-- A reference with a leading dot means the type whose qualified name stands behind the dot. -/
theorem resolve_anchored (h : root.Spelled) (hp : Within root p) (hq : Within root q) {name : String} :
    p.resolve ("." ++ name) = some q ↔ q ≠ ⟨root, []⟩ ∧ q.scope.name = .str name := by
  have hresolve : p.resolve ("." ++ name) = p.top.descend (Text.components name) := by
    simp [Place.resolve]
  rw [hresolve, hp.top_eq, h.descend_eq_some_iff, h.at_components_iff hq]

end Scope.Spelled

/-! ## Trees of schemas -/

namespace Schema

variable {s : Schema} {root : Scope} {p : Place}

theorem labels_of_declared (hs : s.Named) (hp : p.Declared s.typeNames s.allMessages) :
    Value.AreNames p.scope.labels := by
  cases hp.declares with
  | root kind labels => exact labels ▸ hs.top
  | enumeration values kind labels => exact labels ▸ ⟨List.nodup_nil, by simp⟩
  | message m mem kind labels fields => exact labels ▸ hs.nested m mem

/-- The tree of a schema with such names has them, too. -/
theorem spelled_of_ofSchema (h : Scope.ofSchema s = .ok root) (hs : s.Named) : root.Spelled where
  top := by
    obtain ⟨enums, -, h⟩ := Outcome.bind_ok h
    obtain ⟨messages, -, h⟩ := Outcome.bind_ok h
    cases h
    rfl
  labels p hp := labels_of_declared hs (Scope.ofSchema_declared h p (Scope.mem_walk_iff.2 hp))
  qualified p o outer hp := (Scope.ofSchema_declared h p (Scope.mem_walk_iff.2 hp)).name o outer

/-- Attaching defaults does not change names. -/
theorem spelled_of_context (h : s.context = .ok root) (hs : s.Named) : root.Spelled where
  top := (context_root h).1
  labels _ hp := labels_of_declared hs (context_declared h hp)
  qualified _ o outer hp := (context_declared h hp).name o outer

/-- What a path leads to before defaults are attached, it leads to afterwards. -/
theorem exists_at_context {plain : Scope} {q : Place} {path : List String} (h : s.context = .ok root)
    (hs : s.Named) (hplain : Scope.ofSchema s = .ok plain) (hq : At plain path q) :
    ∃ p, At root path p ∧ p.bare = q.bare := by
  obtain ⟨plain', hplain', hattach⟩ := context_ok h
  cases hplain.symm.trans hplain'
  have hroot : (⟨root, []⟩ : Place).bare = (⟨plain, []⟩ : Place).bare := by
    rw [Place.bare, Place.bare, Scope.attach_bare plain hattach]
  have hdescend := congrArg (·.descend path) hroot
  simp only [Place.bare_eq_mapFields, Place.descend_mapFields,
    (spelled_of_ofSchema hplain hs).descend_eq_some_iff.2 hq] at hdescend
  obtain ⟨p, hp, hbare⟩ := Option.map_eq_some_iff.1 hdescend
  exact ⟨p, (spelled_of_context h hs).descend_eq_some_iff.1 hp, by rw [Place.bare_eq_mapFields, hbare]⟩

end Schema

end ProtoScribe
