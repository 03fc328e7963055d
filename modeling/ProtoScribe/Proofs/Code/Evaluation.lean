import ProtoScribe.Proofs.Code.Binding
import ProtoScribe.Proofs.Run

/-!
# What emitted expressions denote

Emitted functions bind local names only, so a qualified name means the class that was linked under it
(`eval_path`), and a name of a cursor operation means that operation (`eval_cursorCall`). `Linked.reader`
and `Linked.writer` put this together for the functions of a message.
-/

namespace ProtoScribe.Code

open Run

/-! ## Names -/

def BindsOnly (names : List String) (frame : Bindings) : Prop :=
  ∀ id, id ∉ names → frame.lookup id = none

def IsLocal (frame : Bindings) : Prop := ∀ id, id ∉ localNames → frame.lookup id = none

/-- An expression means an object wherever only local names are bound, and changes nothing. -/
def Means (globals : Bindings) (e : Expr) (o : Object) : Prop :=
  ∀ frame call, IsLocal frame → eval globals frame call e = pure o

variable {globals frame : Bindings} {call : Caller}

theorem BindsOnly.mono {names names' : List String} (h : BindsOnly names frame) (hnames : names ⊆ names') :
    BindsOnly names' frame := by
  intro id hid
  apply h id
  intro hmem
  exact hid (hnames hmem)

theorem BindsOnly.cons {names : List String} {id : String} (h : BindsOnly names frame) (hid : id ∈ names)
    (o : Object) : BindsOnly names ((id, o) :: frame) := by
  intro other hother
  have hne : other ≠ id := fun heq => hother (heq ▸ hid)
  rw [List.lookup_cons, beq_false_of_ne hne]
  exact h other hother

/-- Assigning binds no more than the name that is assigned to. -/
theorem BindsOnly.assign {names : List String} {id : String} (h : BindsOnly names frame) (hid : id ∈ names)
    (o : Object) : BindsOnly names (assign frame id o) := by
  intro other hother
  have hne : other ≠ id := fun heq => hother (heq ▸ hid)
  rw [lookup_assign_of_ne _ _ hne]
  exact h other hother

theorem isLocal_nil : IsLocal [] := fun _ _ => rfl

theorem IsLocal.cons {id : String} (h : IsLocal frame) (hid : id ∈ localNames) (o : Object) :
    IsLocal ((id, o) :: frame) :=
  BindsOnly.cons h hid o

theorem IsLocal.assign {id : String} (h : IsLocal frame) (hid : id ∈ localNames) (o : Object) :
    IsLocal (assign frame id o) :=
  BindsOnly.assign h hid o

theorem eval_name_of_frame {id : String} {o : Object} (h : frame.lookup id = some o) :
    eval globals frame call (.name id) = pure o := by
  rw [eval, resolveName, h]
  rfl

theorem Means.attr {e : Expr} {members : Bindings} {id : String} {o : Object}
    (h : Means globals e (.type members)) (ho : members.lookup id = some o) :
    Means globals (.attr e id) o := by
  intro frame call hlocal
  rw [eval, h frame call hlocal, pure_bind, Object.member, ho]

/-- A path means what it leads to, step by step. -/
theorem Means.attrs {e : Expr} {members : Bindings} {path : List String} {o : Object}
    (h : Means globals e (.type members)) (ho : Module.find? members path = some o) :
    Means globals (path.foldl .attr e) o := by
  induction path generalizing e members with
  | nil => cases ho
  | cons id rest ih =>
    cases rest with
    | nil => exact h.attr ho
    | cons next rest =>
      rw [Module.find?] at ho
      · split at ho
        · next inner hlookup => exact ih (h.attr hlookup) ho
        · cases ho
      · simp

/-- A name that methods do not bind means what the module binds it to. -/
theorem means_name {id : String} {o : Object} (hfree : id ∉ localNames) (h : globals.lookup id = some o) :
    Means globals (.name id) o := by
  intro frame call hlocal
  rw [eval, resolveName, hlocal id hfree, h]
  rfl

/-- A qualified name means what is found under it. -/
theorem means_path {name : String} {o : Object}
    (hfree : ∀ id, (Text.components name).head? = some id → id ∉ localNames)
    (h : Module.find? globals (Text.components name) = some o) : Means globals (path name) o := by
  unfold path
  split
  · next head rest hcomponents =>
    rw [hcomponents] at h hfree
    have hhead : head ∉ localNames := hfree head rfl
    cases rest with
    | nil => exact means_name hhead h
    | cons next rest =>
      rw [Module.find?] at h
      · split at h
        · next members hlookup => exact (means_name hhead hlookup).attrs h
        · cases h
      · simp
  · next hcomponents =>
    rw [hcomponents] at h
    cases h

/-! ## Functions of messages -/

section

variable {options : Options} {root : Scope} {m : Module} {p : Place}

/-- The functions of a message that read it, by the names that emitted code refers to them with. -/
theorem Linked.reader (h : Linked options root m) (hr : options.noRead = false)
    (hp : Place.Within root p) (hkind : p.kind = .message) :
    ∃ name chain, p.scope.name = .str name ∧ readChain p p.scope.fields = .ok chain ∧
      Means m.globals (.attr (path name) "read") (.function (readFunction name p.scope.fields)) ∧
      Means m.globals (.attr (path name) "_read_field") (.function (fieldFunction chain)) := by
  obtain ⟨name, members, hname, hclass, hfree, hfound, -⟩ := h p hp hkind
  obtain ⟨name', chain, hname', hchain, hread, hfield⟩ := hclass.reader hr
  rw [hname] at hname'
  cases hname'
  have hpath := means_path hfree hfound
  exact ⟨name, chain, hname, hchain, hpath.attr hread, hpath.attr hfield⟩

/-- The function of a message that writes it, by the name that emitted code refers to it with. -/
theorem Linked.writer (h : Linked options root m) (hw : options.noWrite = false)
    (hp : Place.Within root p) (hkind : p.kind = .message) :
    ∃ name body, p.scope.name = .str name ∧ p.scope.fields.mapM (writeStatement p) = .ok body ∧
      Means m.globals (.attr (path name) "write") (.function (writeFunction body)) := by
  obtain ⟨name, members, hname, hclass, hfree, hfound, -⟩ := h p hp hkind
  obtain ⟨body, hbody, hwrite⟩ := hclass.writer hw
  exact ⟨name, body, hname, hbody, (means_path hfree hfound).attr hwrite⟩

end

/-! ## Operations of the cursor -/

theorem ofName?_name : ∀ m ∈ Cursor.Method.all, Cursor.Method.ofName? m.name = some m := by
  decide +kernel

theorem name_notMem : ∀ m ∈ Cursor.Method.all, m.name ∉ ["pos", "read_fields", "write_message"] := by
  decide +kernel

/-- Each operation is a member of the cursor, under its name. -/
theorem member_name {m : Cursor.Method} (h : m ∈ Cursor.Method.all) :
    Object.cursor.member m.name = pure (.method m) := by
  have hnot := name_notMem m h
  simp only [List.mem_cons, List.not_mem_nil, or_false, not_or] at hnot
  rw [Object.member, if_neg hnot.1, if_neg hnot.2.1, if_neg hnot.2.2, ofName?_name m h]

theorem reader_mem (t : Scalar) : t.reader false ∈ Cursor.Method.all := by
  cases t <;> decide

theorem packedReader_mem {t : Scalar} (h : t.coding.packable = true) :
    t.reader true ∈ Cursor.Method.all := by
  cases t <;> first | decide | cases h

theorem writer_mem (t : Scalar) : t.writer false ∈ Cursor.Method.all := by
  cases t <;> decide

theorem packedWriter_mem {t : Scalar} (h : t.coding.packable = true) :
    t.writer true ∈ Cursor.Method.all := by
  cases t <;> first | decide | cases h

/-- A call of a cursor operation evaluates its arguments and applies the operation. -/
theorem eval_cursorCall {m : Cursor.Method} (hm : m ∈ Cursor.Method.all)
    (hcursor : frame.lookup cursorName = some .cursor) (args : List Expr) :
    eval globals frame call (cursorCall m.name args) =
      evalAll globals frame call args >>= apply call (.method m) := by
  rw [cursorCall, eval, eval, eval_name_of_frame hcursor, pure_bind, member_name hm, pure_bind]

theorem evalAll_cons (e : Expr) (rest : List Expr) :
    evalAll globals frame call (e :: rest) =
      eval globals frame call e >>= fun o => (o :: ·) <$> evalAll globals frame call rest := by
  rw [evalAll]
  rfl

def signedValues (t : Scalar) : List Value := if t.signed then [.bool true] else []

theorem evalAll_signedArgs (t : Scalar) :
    evalAll globals frame call (signedArgs t) = pure ((signedValues t).map .value) := by
  unfold signedArgs signedValues
  split
  · simp [evalAll, eval]
  · simp [evalAll]

theorem mapM_toValue (vs : List Value) : (vs.map Object.value).mapM Object.toValue = .ok vs := by
  induction vs with
  | nil => rfl
  | cons v vs ih =>
    rw [List.map_cons, List.mapM_cons, ih]
    rfl

/-- Applying an operation to plain values is calling it. -/
theorem apply_method (m : Cursor.Method) (vs : List Value) :
    apply call (.method m) (vs.map .value) = Object.value <$> m.call vs := by
  rw [apply, mapM_toValue]
  rfl

end ProtoScribe.Code
