import ProtoScribe.Proofs.Code.Reading
import ProtoScribe.Proofs.Code.Writing
import ProtoScribe.Proofs.Codec.Depth

/-!
# Generated code refines the slots

The functions that are generated for a message, loaded and run, are reading and writing by slots: from
every cursor, and whatever they are handed, they end with the same result, the same fault and the same
cursor (`generated_code_refines_slots`). The bounds on depth that both sides run under are never used
up, so neither side is cut short.

`Compiled` collects what the statements about generated code assume: a well-named schema, the module
that its code loads as, and one of its messages with the path it is found by.
-/

namespace ProtoScribe.Code

open Run

/-- A message of a well-named schema, and the module that the code of the schema loads as. -/
structure Compiled (s : Schema) (options : Options) (m : Module) (p : Place) (path : String) : Prop where
  named : s.wellNamed = true
  loaded : Module.ofSchema s options = .ok m
  within : ∃ root, s.context = .ok root ∧ p ∈ root.walk
  isMessage : p.kind = .message
  path_eq : p.scope.name = .str path

def messageAt? (s : Schema) (path : String) : Option Place :=
  match s.context with
  | .ok root => root.walk.find? fun p => p.kind = .message && p.scope.name = .str path
  | .error _ => none

/-- What `Compiled` asks for can be computed, and so can more about the message. -/
theorem exists_compiled {s : Schema} {options : Options} {path : String} (check : Place → Bool)
    (hs : s.wellNamed = true) (hload : (Module.ofSchema s options).isOk = true)
    (hpath : (messageAt? s path).any check = true) :
    ∃ m p, Compiled s options m p path ∧ check p = true := by
  obtain ⟨p, hp, hcheck⟩ := (Option.any_eq_true _ _).1 hpath
  cases hm : Module.ofSchema s options with
  | error e =>
    rw [hm] at hload
    cases hload
  | ok m =>
    unfold messageAt? at hp
    split at hp
    · next root hroot =>
      have hfound := List.find?_some hp
      simp only [Bool.and_eq_true, decide_eq_true_eq] at hfound
      exact ⟨m, p, ⟨hs, hm, ⟨root, hroot, List.mem_of_find?_eq_some hp⟩, hfound.1, hfound.2⟩, hcheck⟩
    · cases hp

/-! ## Functions by path -/

/-- An expression means one thing. -/
theorem Means.unique {globals : Bindings} {e : Expr} {o o' : Object} (h : Means globals e o)
    (h' : Means globals e o') : o = o' := by
  have hrun : (pure o : Run Object) = pure o' :=
    (h [] (fun _ _ => throw .tooDeep) isLocal_nil).symm.trans (h' [] _ isLocal_nil)
  have hok := congrFun hrun Cursor.empty
  cases hok
  rfl

section

variable {options : Options} {root : Scope} {m : Module} {p : Place} {path : String}

/-- A linked message is read as calls of its reader do. -/
theorem Linked.readWithin_eq {embedded : Place → Value → Run Value} {depth : Nat} (h : Linked options root m)
    (hr : options.noRead = false) (hcalls : CallsRead root m.globals (invoke m.globals depth) embedded)
    (hp : Place.Within root p) (hkind : p.kind = .message) (hpath : p.scope.name = .str path)
    (stop : Value) : m.readWithin depth path stop = embedded p stop := by
  obtain ⟨name, members, hname, hclass, hfree, hfound, hexported⟩ := h p hp hkind
  rw [hpath] at hname
  cases hname
  obtain ⟨name', chain, hname', -, hread, -⟩ := hclass.reader hr
  rw [hpath] at hname'
  cases hname'
  have hfunction : m.function path "read" = .ok (readFunction path p.scope.fields) := by
    have hlookup : members.lookup "read" = some (.function (readFunction path p.scope.fields)) := hread
    simp only [Module.function, hexported, hlookup]
  obtain ⟨name', f, hname', hf, hcall⟩ := hcalls p hp hkind
  rw [hpath] at hname'
  cases hname'
  have hsame := ((means_path hfree hfound).attr hread).unique hf
  cases hsame
  have hresult : ∀ x : Run Exit, (x >>= fun exit => Cursor.lift exit.result.toValue) =
      ((·.result) <$> x) >>= fun o => Cursor.lift o.toValue := fun x => by rw [bind_map_left]
  rw [Module.readWithin, hfunction, lift_ok_bind, hresult, hcall, bind_map_left]
  exact bind_pure _

/-- A linked message is read by reading its slots. -/
theorem Linked.read_eq (h : Linked options root m) (hr : options.noRead = false)
    (hp : Place.Within root p) (hkind : p.kind = .message) (hpath : p.scope.name = .str path)
    (stop : Value) : m.read path stop = Codec.read p stop := by
  funext c
  have hwithin := h.readWithin_eq hr (invoke_read h hr (c.rest.length + 1)) hp hkind hpath stop
  exact congrFun hwithin c

/-- A linked message is written by writing its slots. -/
theorem Linked.write_eq (h : Linked options root m) (hw : options.noWrite = false)
    (hp : Place.Within root p) (hkind : p.kind = .message) (hpath : p.scope.name = .str path)
    (v : Value) : m.write path v = Codec.write p v := by
  obtain ⟨name, members, hname, hclass, hfree, hfound, hexported⟩ := h p hp hkind
  rw [hpath] at hname
  cases hname
  obtain ⟨body, -, hwrite⟩ := hclass.writer hw
  have hfunction : m.function path "write" = .ok (writeFunction body) := by
    have hlookup : members.lookup "write" = some (.function (writeFunction body)) := hwrite
    simp only [Module.function, hexported, hlookup]
  obtain ⟨name', f, hname', hf, hcall⟩ := invoke_write h hw (v.depth + 2) p hp hkind
  rw [hpath] at hname'
  cases hname'
  have hsame := ((means_path hfree hfound).attr hwrite).unique hf
  cases hsame
  rw [Module.write, hfunction, lift_ok_bind, hcall, Codec.write]

end

section

variable {s : Schema} {options : Options} {m : Module} {p : Place} {path : String}

theorem Compiled.linked (h : Compiled s options m p path) :
    ∃ root, s.context = .ok root ∧ Place.Within root p ∧ Linked options root m := by
  obtain ⟨root, hroot, hp⟩ := h.within
  exact ⟨root, hroot, Scope.mem_walk_iff.1 hp, linked_of_ofSchema h.loaded hroot h.named⟩

/-- A module with readers has resolved the types of all fields. -/
theorem Compiled.exists_slots (h : Compiled s options m p path) (hr : options.noRead = false) :
    ∃ slots, p.slots = .ok slots := by
  obtain ⟨root, -, hp, hlinked⟩ := h.linked
  exact hlinked.exists_slots hr hp h.isMessage

/-- The reader in the compiled module is the reader over slots. -/
theorem Compiled.read_eq (h : Compiled s options m p path) (hr : options.noRead = false) (stop : Value) :
    m.read path stop = Codec.read p stop := by
  obtain ⟨root, -, hp, hlinked⟩ := h.linked
  exact hlinked.read_eq hr hp h.isMessage h.path_eq stop

/-- The writer in the compiled module is the writer over slots. -/
theorem Compiled.write_eq (h : Compiled s options m p path) (hw : options.noWrite = false) (v : Value) :
    m.write path v = Codec.write p v := by
  obtain ⟨root, -, hp, hlinked⟩ := h.linked
  exact hlinked.write_eq hw hp h.isMessage h.path_eq v

/-- Generated functions are the same operations as reading and writing by slots: where they were
generated at all, they have the same results, faults and cursors, and never run out of depth. -/
theorem generated_code_refines_slots (h : Compiled s options m p path) :
    (options.noRead = false → ∀ stop,
      m.read path stop = Codec.read p stop ∧ Fails Fault.IsShallow (m.read path stop)) ∧
    (options.noWrite = false → ∀ v,
      m.write path v = Codec.write p v ∧ Fails Fault.IsShallow (m.write path v)) := by
  refine ⟨fun hr stop => ?_, fun hw v => ?_⟩
  · have heq := h.read_eq hr stop
    exact ⟨heq, heq ▸ Codec.read_shallow p stop⟩
  · have heq := h.write_eq hw v
    exact ⟨heq, heq ▸ Codec.write_shallow p v⟩

/-- A message that refers to itself, to a type inside it, and has two fields of one tag. -/
def nodeSchema : Schema where
  version := .proto3
  package := .none
  enums := []
  messages := [{
    name := .str "Node"
    fields := [
      { name := .str "value", type := .str "int32", tag := 1 },
      { name := .str "alias", type := .str "string", tag := 1 },
      { name := .str "next", type := .str "Node", tag := 2 },
      { name := .str "kinds", type := .str "Kind", tag := 3, repeated := true,
        options := [("packed", "true")] }]
    enums := [⟨.str "Kind", [("PLAIN", 0), ("OTHER", 1)]⟩]
    messages := [] }]

theorem node_code_refines_slots : ∃ m p, Compiled nodeSchema {} m p "Node" ∧
    (∀ stop, m.read "Node" stop = Codec.read p stop) ∧ ∀ v, m.write "Node" v = Codec.write p v := by
  obtain ⟨m, p, h, -⟩ : ∃ m p, Compiled nodeSchema {} m p "Node" ∧ true :=
    exists_compiled (fun _ => true) (by decide +kernel) (by decide +kernel) (by decide +kernel)
  obtain ⟨hread, hwrite⟩ := generated_code_refines_slots h
  exact ⟨m, p, h, fun stop => (hread rfl stop).1, fun v => (hwrite rfl v).1⟩

end

end ProtoScribe.Code
