import ProtoScribe.Proofs.Schema.Loading
import ProtoScribe.Proofs.Scope.Paths

/-!
# Descriptions in the tree

A path of names leads to the description of a message (`Description.Describes`), and in the tree of the
schema that was loaded the same path leads to the scope of that message (`Schema.exists_described`). Each
of its fields is the field that is described, with the default that was found for it.
-/

namespace ProtoScribe

/-! ## Scopes of messages -/

namespace Scope

theorem exists_scope_of_mem {outer : Value} {ms : List Message} {ss : List Scope}
    (h : ofMessages outer ms = .ok ss) {m : Message} (hm : m ∈ ms) : ∃ s ∈ ss, ofMessage outer m = .ok s := by
  induction ms generalizing ss with
  | nil => cases hm
  | cons first rest ih =>
    rw [ofMessages] at h
    obtain ⟨s, hs, h⟩ := Outcome.bind_ok h
    obtain ⟨ss, hss, h⟩ := Outcome.bind_ok h
    cases h
    rcases List.mem_cons.1 hm with rfl | hm
    · exact ⟨s, by simp, hs⟩
    · obtain ⟨t, ht, htm⟩ := ih hss hm
      exact ⟨t, by simp [ht], htm⟩

/-- The scope of a message has its fields, and a scope for every message inside. -/
theorem ofMessage_ok {outer : Value} {m : Message} {s : Scope} (h : ofMessage outer m = .ok s) :
    s.kind = .message ∧ s.fields = m.fields ∧
      ∀ inner ∈ m.messages, ∃ c ∈ s.children, ∃ name, ofMessage name inner = .ok c := by
  obtain ⟨label, fields, enums, messages⟩ := m
  rw [ofMessage] at h
  split at h
  · obtain ⟨enumScopes, -, h⟩ := Outcome.bind_ok h
    obtain ⟨scopes, hscopes, h⟩ := Outcome.bind_ok h
    cases h
    refine ⟨rfl, rfl, fun inner hinner => ?_⟩
    obtain ⟨c, hc, hscope⟩ := exists_scope_of_mem hscopes hinner
    exact ⟨c, List.mem_append_right _ hc, _, hscope⟩
  · cases h

end Scope

/-! ## Descriptions by path -/

namespace Description

open Place (At)

/-- The description that a path of names leads to, through the messages that are described inside. -/
inductive Describes : List (Value × Value) → List String → List (Value × Value) → Prop
  | here (es : List (Value × Value)) : Describes es [] es
  | inside {es inner ds : List (Value × Value)} {name : String} {path : List String} :
    .dict inner ∈ listed (get? es "messages") → get? inner "name" = some (.str name) →
    Describes inner path ds → Describes es (name :: path) ds

variable {root : Scope} {path : List String} {es ds : List (Value × Value)}

theorem Describes.isJson (h : Describes es path ds) (hes : Value.membersAreJson es = true) :
    Value.membersAreJson ds = true := by
  induction h with
  | here => exact hes
  | inside hinner _ _ ih => exact ih (isJson_of_listed hes hinner)

theorem SpellsMessage.label {version : Version} {m : Message} {outer : Value} {c : Scope} {name : String}
    (h : SpellsMessage version (.dict es) m) (hname : get? es "name" = some (.str name))
    (hc : Scope.ofMessage outer m = .ok c) : c.label = .str name := by
  rw [Scope.ofMessage_label hc]
  cases h with
  | object hown => exact Option.some.inj (hown.symm.trans hname)

/-- Below the scope of a message, a path leads to the scope of the message that is described there. -/
theorem exists_at_of_describes (hd : Describes es path ds) {version : Version} {m : Message}
    (hspells : SpellsMessage version (.dict es) m) {front : List String} {p : Place} (hp : At root front p)
    {outer : Value} (hscope : Scope.ofMessage outer m = .ok p.scope) :
    ∃ q m', At root (front ++ path) q ∧ q.kind = .message ∧ q.scope.fields = m'.fields ∧
      SpellsMessage version (.dict ds) m' := by
  induction hd generalizing m front p outer with
  | here es =>
    obtain ⟨hkind, hfields, -⟩ := Scope.ofMessage_ok hscope
    exact ⟨p, m, by simpa using hp, hkind, hfields, hspells⟩
  | @inside es inner ds name path hinner hname _ ih =>
    cases hspells with
    | object _ _ _ hmessages =>
      obtain ⟨m', hm', hspells'⟩ := Outcome.exists_right hmessages hinner
      obtain ⟨c, hc, outer', hscope'⟩ := (Scope.ofMessage_ok hscope).2.2 m' hm'
      obtain ⟨q, m'', hq, hrest⟩ :=
        ih hspells' (.child hp hc (hspells'.label hname hscope')) hscope'
      exact ⟨q, m'', by simpa using hq, hrest⟩

end Description

namespace Schema

open Description
open Place (At)

variable {s : Schema} {root : Scope} {path : List String} {es ds : List (Value × Value)}

theorem exists_at_ofSchema (hspells : SpellsSchema (.dict es) s) (h : Scope.ofSchema s = .ok root)
    (hd : Describes es path ds) (hne : path ≠ []) :
    ∃ q m, At root path q ∧ q.kind = .message ∧ q.scope.fields = m.fields ∧
      SpellsMessage s.version (.dict ds) m := by
  obtain ⟨enums, -, h⟩ := Outcome.bind_ok h
  obtain ⟨scopes, hscopes, h⟩ := Outcome.bind_ok h
  cases h
  cases hd with
  | here => exact absurd rfl hne
  | @inside _ inner _ name path hinner hname hd =>
    cases hspells with
    | object _ _ _ hmessages =>
      obtain ⟨m, hm, hspells⟩ := Outcome.exists_right hmessages hinner
      obtain ⟨c, hc, hscope⟩ := Scope.exists_scope_of_mem hscopes hm
      have hlabel := hspells.label hname hscope
      exact exists_at_of_describes hd hspells (.child .root (List.mem_append_right _ hc) hlabel) hscope

/-- The tree with defaults has a place for every message that is described. Each field that is described
is there, with the default that was found for it where types mean what they mean at that place. -/
theorem exists_described (hspells : SpellsSchema (.dict es) s) (hs : s.Named) (h : s.context = .ok root)
    (hd : Describes es path ds) (hne : path ≠ []) :
    ∃ p p₀, At root path p ∧ p.kind = .message ∧ p₀.bare = p.bare ∧
      ∀ g ∈ listed (get? ds "fields"), ∃ f ∈ p.scope.fields, ∃ f₀,
        SpellsField s.version g f₀ ∧ f₀.withDefault s.version p₀ = .ok f := by
  obtain ⟨plain, hplain, hattach⟩ := context_ok h
  obtain ⟨q, m, hq, hkind, hfields, hspells⟩ := exists_at_ofSchema hspells hplain hd hne
  obtain ⟨p, hp, hpq⟩ := exists_at_context h hs hplain hq
  obtain ⟨p₀, -, hbare, hdefaults⟩ :=
    Scope.attach_origin plain hattach rfl p (Scope.mem_walk_iff.2 hp.within)
  refine ⟨p, p₀, hp, ?_, hbare, fun g hg => ?_⟩
  · rw [← hkind, ← Place.bare_kind p, hpq, Place.bare_kind]
  · cases hspells with
    | object _ hspells =>
      obtain ⟨f₀, hf₀, hspellsField⟩ := Outcome.exists_right hspells hg
      have hsame : p₀.scope.fields.map Field.bare = m.fields.map Field.bare := by
        have hscope := congrArg (fun p : Place => p.scope.fields) (hbare.trans hpq)
        simpa [Place.bare, hfields] using hscope
      obtain ⟨f₁, hf₁, hbare₁⟩ := List.mem_map.1 (hsame ▸ List.mem_map_of_mem hf₀)
      obtain ⟨f, hf, hdefault⟩ := Outcome.exists_right hdefaults hf₁
      refine ⟨f, hf, f₀, hspellsField, ?_⟩
      rw [← hdefault, ← Field.withDefault_bare f₀, ← hbare₁, Field.withDefault_bare]

end Schema

end ProtoScribe
