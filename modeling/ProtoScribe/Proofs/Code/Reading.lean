import ProtoScribe.Codec.Read
import ProtoScribe.Proofs.Code.Evaluation
import ProtoScribe.Proofs.Cursor.Forward

/-!
# Emitted readers read by slots

Running the function that was emitted to read a message is reading the message by its slots, with the
same result, the same fault and the same cursor (`invoke_read`). The parts correspond one by one: the
expression for a value to `readValue`, the statement for a field to `store`, the chain of tests to the
look-up of the first slot with a tag, and the dictionary that reading starts from to `initial`.

A message takes two nested calls, one for itself and one for each of its fields.
-/

namespace ProtoScribe

open Run

namespace Code

variable {globals : Bindings} {call : Caller}

/-! ## Values -/

/-- A call of a message's reader does what `embedded` does. -/
def CallsRead (root : Scope) (globals : Bindings) (call : Caller)
    (embedded : Place → Value → Run Value) : Prop :=
  ∀ q, Place.Within root q → q.kind = .message → ∃ name f, q.scope.name = .str name ∧
    Means globals (.attr (path name) "read") (.function f) ∧
    ∀ stop, (·.result) <$> call f [.cursor, .value stop] = Object.value <$> embedded q stop

theorem call_reader (t : Scalar) :
    (t.reader false).call (signedValues t) = Cursor.readAs t.coding t.signed := by
  cases t <;> rfl

/-- Calling an operation to read a value, as generated code does. -/
theorem eval_reader {frame : Bindings} (hcursor : frame.lookup cursorName = some .cursor) (t : Scalar) :
    eval globals frame call (cursorCall (t.reader false).name (signedArgs t)) =
      Object.value <$> Cursor.readAs t.coding t.signed := by
  rw [← call_reader, eval_cursorCall (reader_mem t) hcursor, evalAll_signedArgs, pure_bind, apply_method]

/-- The length of an embedded message, and the position after it, give where the message stops. -/
theorem eval_stop {frame : Bindings} (hcursor : frame.lookup cursorName = some .cursor) :
    eval globals frame call
        (.sum (cursorCall (Cursor.Method.read .varint).name []) (.attr (.name cursorName) "pos")) =
      (do
        let size ← Cursor.readVarint
        let pos := (← get).pos
        return .value (.int (size + pos : Nat))) := by
  have hsize : eval globals frame call (cursorCall (Cursor.Method.read .varint).name []) =
      (fun n : Nat => Object.value (.int n)) <$> Cursor.readVarint := by
    rw [eval_cursorCall (by decide) hcursor, evalAll, pure_bind]
    exact (apply_method _ []).trans (by simp [Cursor.Method.call, Cursor.read])
  have hpos : eval globals frame call (.attr (.name cursorName) "pos") =
      (fun c : Cursor => Object.value (.int c.pos)) <$> get := by
    rw [eval, eval_name_of_frame hcursor, pure_bind]
    rfl
  rw [eval, hsize, hpos]
  simp only [bind_map_left, Object.toValue, lift_ok_bind, add, Int.natCast_add]

/-- The expression for a value reads what its target reads. -/
theorem eval_readValue {root : Scope} {embedded : Place → Value → Run Value} {frame : Bindings}
    (hembedded : CallsRead root globals call embedded) (hlocal : IsLocal frame)
    (hcursor : frame.lookup cursorName = some .cursor) {t : Target} {e : Expr}
    (hwithin : ∀ q, t = .message q → Place.Within root q ∧ q.kind = .message) (h : readValue t = .ok e) :
    eval globals frame call e = Object.value <$> Codec.readValue embedded t := by
  cases t with
  | scalar t =>
    cases h
    exact eval_reader hcursor t
  | enumeration q =>
    cases h
    exact eval_reader hcursor .enum
  | message q =>
    obtain ⟨hq, hkind⟩ := hwithin q rfl
    obtain ⟨name, f, hname, hread, hcall⟩ := hembedded q hq hkind
    rw [readValue, hname] at h
    cases h
    have happly : ∀ args, apply call (.function f) args = (·.result) <$> call f args := fun _ => rfl
    rw [eval, hread frame call hlocal, pure_bind, evalAll_cons, eval_name_of_frame hcursor, pure_bind,
      evalAll_cons, eval_stop hcursor, evalAll]
    simp only [Codec.readValue, map_bind, map_pure, bind_assoc, pure_bind, happly, hcall]

/-! ## Statements -/

def fieldFrame (tag : Nat) (message : List (Value × Value)) : Bindings :=
  [(tagName, .value (.int tag)), (objName, .value (.dict message)), (cursorName, .cursor)]

theorem isLocal_fieldFrame (tag : Nat) (message : List (Value × Value)) :
    IsLocal (fieldFrame tag message) :=
  ((isLocal_nil.cons (by decide) _).cons (by decide) _).cons (by decide) _

theorem resolveName_fieldFrame (tag : Nat) (message : List (Value × Value)) :
    resolveName globals (fieldFrame tag message) objName = .ok (.value (.dict message)) := rfl

theorem assign_fieldFrame (tag : Nat) (message message' : List (Value × Value)) :
    assign (fieldFrame tag message) objName (.value (.dict message')) = fieldFrame tag message' := rfl

theorem item_dict (message : List (Value × Value)) (key : Value) :
    (Object.value (.dict message)).item key = Codec.entry message key := rfl

theorem call_packedReader {t : Scalar} (list : Value) :
    (t.reader true).call (list :: signedValues t) = Cursor.readPacked t.coding t.signed list := by
  cases t <;> rfl

section

variable {root : Scope} {embedded : Place → Value → Run Value} {p : Place} {s : Slot}

/-- What is emitted for a slot: its values extend a list as a run, or are read one at a time. -/
theorem readStatement_ok {stmt : Stmt} (htarget : p.target s.field = .ok s.target)
    (h : readStatement p s.field = .ok stmt) :
    (∃ t, s.field.repeated = true ∧ s.runType? = some t ∧ t.coding.packable = true ∧
      stmt = .extend cursorName (t.reader true).name objName s.field.name (signedArgs t)) ∨
    (∃ value, readValue s.target = .ok value ∧ ((s.field.repeated = true ∧ s.runType? = none ∧
        stmt = .append objName s.field.name value) ∨
      (s.field.repeated = false ∧ stmt = .store objName s.field.name value))) := by
  obtain ⟨target, hfound, h⟩ := Outcome.bind_ok h
  rw [htarget] at hfound
  cases hfound
  cases hrep : s.field.repeated with
  | false =>
    rw [Field.packable, hrep] at h
    obtain ⟨value, hvalue, h⟩ := Outcome.bind_ok h
    cases h
    exact .inr ⟨value, hvalue, .inr ⟨rfl, rfl⟩⟩
  | true =>
    have hpackable : s.field.packable s.target = s.target.packable := by
      rw [Field.packable, hrep, Bool.true_and]
    rw [hpackable] at h
    cases hrun : s.runType? with
    | some t =>
      have hrun' := hrun
      rw [Slot.runType?] at hrun'
      rw [hrun'] at h
      cases h
      refine .inl ⟨t, rfl, rfl, ?_, rfl⟩
      split at hrun'
      · next hpack => rwa [Target.packable, hrun'] at hpack
      · cases hrun'
    | none =>
      rw [Slot.runType?] at hrun
      rw [hrun, hrep] at h
      obtain ⟨value, hvalue, h⟩ := Outcome.bind_ok h
      cases h
      exact .inr ⟨value, hvalue, .inl ⟨rfl, rfl, rfl⟩⟩

/-- The statement for a field stores what its slot stores. -/
theorem exec_readStatement (hembedded : CallsRead root globals call embedded)
    (hwithin : ∀ q, s.target = .message q → Place.Within root q ∧ q.kind = .message)
    (htarget : p.target s.field = .ok s.target) {stmt : Stmt}
    (h : readStatement p s.field = .ok stmt) (tag : Nat) (message : List (Value × Value)) :
    exec globals call (fieldFrame tag message) stmt =
      (fun message' => (fieldFrame tag message', none)) <$> Codec.store embedded s message := by
  have hcursor : resolveName globals (fieldFrame tag message) cursorName = .ok .cursor := rfl
  have hvalue : ∀ e, readValue s.target = .ok e → eval globals (fieldFrame tag message) call e =
      Object.value <$> Codec.readValue embedded s.target := fun e he =>
    eval_readValue hembedded (isLocal_fieldFrame tag message) rfl hwithin he
  unfold Codec.store
  rcases readStatement_ok htarget h with ⟨t, hrep, hrun, hpack, rfl⟩ |
    ⟨value, he, ⟨hrep, hrun, rfl⟩ | ⟨hrep, rfl⟩⟩
  · rw [if_pos hrep, exec, hcursor, lift_ok_bind, member_name (packedReader_mem hpack), pure_bind,
      resolveName_fieldFrame, lift_ok_bind, item_dict, hrun]
    cases Codec.entry message s.field.name with
    | error e => rfl
    | ok old =>
      have hpacked : apply call (.method (t.reader true)) (.value old :: (signedValues t).map .value) =
          Object.value <$> Cursor.readPacked t.coding t.signed old :=
        (apply_method _ (old :: signedValues t)).trans (congrArg _ (call_packedReader old))
      rw [lift_ok_bind, lift_ok_bind, evalAll_signedArgs, pure_bind, hpacked, bind_map_left]
      cases old with
      | list items =>
        simp only [Object.toValue, lift_ok_bind, Object.withItem, assign_fieldFrame, map_bind, map_pure]
      | none | bool _ | int _ | float _ | str _ | bytes _ | dict _ =>
        simp only [Object.toValue, lift_ok_bind, discard_eq_map, map_bind, map_pure, bind_map_left]
  · rw [if_pos hrep, exec, resolveName_fieldFrame, lift_ok_bind, item_dict, hrun]
    cases Codec.entry message s.field.name with
    | error e => rfl
    | ok old =>
      rw [lift_ok_bind, lift_ok_bind]
      cases old with
      | list items =>
        simp only [hvalue value he, bind_map_left, Object.toValue, lift_ok_bind, Object.withItem,
          assign_fieldFrame, map_bind, map_pure]
      | none | bool _ | int _ | float _ | str _ | bytes _ | dict _ => rfl
  · rw [if_neg (by simp [hrep]), exec, hvalue value he]
    simp only [bind_map_left, Object.toValue, lift_ok_bind, resolveName_fieldFrame, Object.withItem,
      assign_fieldFrame, map_bind, map_pure]

/-! ## Fields -/

theorem execAll_singleton {α : Type} {frame : Bindings} {stmt : Stmt} {after : α → Bindings} {x : Run α}
    (h : exec globals call frame stmt = (fun a => (after a, none)) <$> x) :
    execAll globals call frame [stmt] = (fun a => (after a, none)) <$> x := by
  rw [execAll, h, bind_map_left]
  simp only [execAll, map_eq_pure_bind]

/-- The chain of tests finds the first slot with a tag. -/
theorem execAll_readChain (hembedded : CallsRead root globals call embedded) {fields : List Field}
    {slots : List Slot}
    (hslots : List.Forall₂ (fun f s => s.field = f ∧ p.target f = .ok s.target) fields slots)
    (hwithin : ∀ s ∈ slots, ∀ q, s.target = .message q → Place.Within root q ∧ q.kind = .message)
    {chain : List Stmt} (h : readChain p fields = .ok chain) (tag : Nat)
    (message : List (Value × Value)) :
    execAll globals call (fieldFrame tag message) chain =
      (fun message' => (fieldFrame tag message', none)) <$> Codec.readField embedded slots tag message := by
  induction hslots generalizing chain with
  | nil =>
    rw [readChain] at h
    cases h
    rfl
  | @cons f s fields slots hs _ ih =>
    obtain ⟨rfl, htarget⟩ := hs
    rw [readChain] at h
    obtain ⟨otherwise, hotherwise, h⟩ := Outcome.bind_ok h
    obtain ⟨body, hbody, h⟩ := Outcome.bind_ok h
    cases h
    have hbody := exec_readStatement hembedded (hwithin s (by simp)) htarget hbody tag message
    have hotherwise := ih (fun t ht => hwithin t (by simp [ht])) hotherwise
    have htest : eval globals (fieldFrame tag message) call
        (.equal (.name tagName) (.const (.int s.field.tag))) =
          pure (.value (.bool ((tag : Int) == s.field.tag))) := rfl
    refine execAll_singleton ?_
    rw [exec, htest, pure_bind]
    -- the test of this slot comes first, as does the slot in the look-up; the chain behind it is `otherwise`
    by_cases htag : s.field.tag = (tag : Int)
    · have hfound : Codec.readField embedded (s :: slots) tag message = Codec.store embedded s message := by
        simp [Codec.readField, htag]
      rw [hfound, if_pos (by simp [Object.truthy, Value.truthy, htag])]
      exact execAll_singleton hbody
    · have hlater : Codec.readField embedded (s :: slots) tag message =
          Codec.readField embedded slots tag message := by
        simp [Codec.readField, htag]
      rw [hlater, if_neg (by simpa [Object.truthy, Value.truthy] using Ne.symm htag)]
      exact hotherwise

/-- Handing a field to the emitted function stores it in the first slot with its tag. -/
theorem onField_fieldFunction {depth : Nat} (hembedded : CallsRead root globals (invoke globals depth) embedded)
    {slots : List Slot} (hp : Place.Within root p) (hslots : p.slots = .ok slots) {chain : List Stmt}
    (h : readChain p p.scope.fields = .ok chain) (tag : Nat) (message : List (Value × Value)) :
    onField (invoke globals (depth + 1)) (fieldFunction chain) tag (.dict message) =
      Value.dict <$> Codec.readField embedded slots tag message := by
  have hchain := execAll_readChain hembedded (Place.slots_ok hslots)
    (fun s hs q hq => hp.slot hslots hs hq) h tag message
  have hparams : bindParams (fieldFunction chain).params
      [.value (.int tag), .value (.dict message), .cursor] = .ok (fieldFrame tag message) := rfl
  rw [onField, invoke, hparams, lift_ok_bind]
  have hbody : (fieldFunction chain).body = chain := rfl
  rw [hbody, hchain]
  rw [map_eq_pure_bind]
  simp only [bind_assoc, pure_bind]
  exact bind_congr fun message' => rfl

/-! ## Messages -/

/-- The dictionary that reading starts with lists what the slots start with. -/
theorem evalEntries_initial {frame : Bindings} {fields : List Field} {slots : List Slot}
    (hslots : List.Forall₂ (fun f s => s.field = f ∧ p.target f = .ok s.target) fields slots) :
    evalEntries globals frame call (fields.filterMap fun f =>
        if f.repeated then some (f.name, .emptyList)
        else if f.default = .none then none
        else some (f.name, .const f.default)) =
      pure (slots.filterMap Slot.initial?) := by
  induction hslots with
  | nil => rfl
  | @cons f s fields slots hs _ ih =>
    obtain ⟨rfl, -⟩ := hs
    rw [List.filterMap_cons, List.filterMap_cons, Slot.initial?]
    by_cases hrep : s.field.repeated = true
    · simp only [if_pos hrep, evalEntries, eval, pure_bind, Object.toValue, lift_ok_bind, ih]
    · by_cases hdefault : s.field.default = .none
      · simp only [if_neg hrep, if_pos hdefault, ih]
      · simp only [if_neg hrep, if_neg hdefault, evalEntries, eval, pure_bind, Object.toValue,
          lift_ok_bind, ih]

/-- The dictionary that reading starts from. -/
theorem eval_initial {frame : Bindings} {slots : List Slot} (hslots : p.slots = .ok slots) :
    eval globals frame call (initial p.scope.fields) = pure (.value (.dict (Codec.initial slots))) := by
  rw [initial, eval, evalEntries_initial (Place.slots_ok hslots), pure_bind]
  rfl

/-- A chain could only be generated because every field resolves. -/
theorem slots_of_readChain {chain : List Stmt} (h : readChain p p.scope.fields = .ok chain) :
    ∃ slots, p.slots = .ok slots := by
  have hall : ∀ fields chain, readChain p fields = .ok chain → ∃ slots : List Slot,
      List.Forall₂ (fun f s => s.field = f ∧ p.target f = .ok s.target) fields slots := by
    intro fields
    induction fields with
    | nil => exact fun _ _ => ⟨[], .nil⟩
    | cons f rest ih =>
      intro chain h
      rw [readChain] at h
      obtain ⟨otherwise, hotherwise, h⟩ := Outcome.bind_ok h
      obtain ⟨body, hbody, -⟩ := Outcome.bind_ok h
      obtain ⟨t, ht, -⟩ := Outcome.bind_ok hbody
      obtain ⟨slots, hslots⟩ := ih otherwise hotherwise
      exact ⟨⟨f, t⟩ :: slots, .cons ⟨rfl, ht⟩ hslots⟩
  obtain ⟨slots, hslots⟩ := hall _ chain h
  exact ⟨slots, Place.slots_eq_ok hslots⟩

/-- A message that can be read has fields whose types have a meaning. -/
theorem Linked.exists_slots {options : Options} {m : Module} (h : Linked options root m)
    (hr : options.noRead = false) (hp : Place.Within root p) (hkind : p.kind = .message) :
    ∃ slots, p.slots = .ok slots := by
  obtain ⟨name, chain, -, hchain, -⟩ := h.reader hr hp hkind
  exact slots_of_readChain hchain

end

section

variable {options : Options} {root : Scope} {m : Module}

/-- Running the emitted reader of a message reads it by its slots, if the emitted function for a field
does what `field` does when it is called from there. -/
theorem callsRead_succ (h : Linked options root m) (hr : options.noRead = false) {depth : Nat}
    {field : List Slot → Nat → List (Value × Value) → Run (List (Value × Value))}
    (hfield : ∀ p slots chain, Place.Within root p → p.slots = .ok slots →
      readChain p p.scope.fields = .ok chain → ∀ tag message,
      onField (invoke m.globals depth) (fieldFunction chain) tag (.dict message) =
        Value.dict <$> field slots tag message) :
    CallsRead root m.globals (invoke m.globals (depth + 1)) (Codec.readWith field) := by
  intro p hp hkind
  obtain ⟨name, chain, hname, hchain, hread, hfunction⟩ := h.reader hr hp hkind
  refine ⟨name, _, hname, hread, fun stop => ?_⟩
  obtain ⟨slots, hslots⟩ := slots_of_readChain hchain
  have hloop := Cursor.readFields_map (hfield p slots chain hp hslots hchain) stop (Codec.initial slots)
  have hlocal : IsLocal [(cursorName, .cursor), (endName, .value stop)] :=
    (isLocal_nil.cons (by decide) _).cons (by decide) _
  have hstart : eval m.globals [(cursorName, .cursor), (endName, .value stop)] (invoke m.globals depth)
      (cursorCall "read_fields" [.attr (path name) "_read_field", initial p.scope.fields,
        .name endName]) =
    (fun message => .value (.dict message)) <$>
      Cursor.readFields (field slots) stop (Codec.initial slots) := by
    have hreader : Object.cursor.member "read_fields" = pure .fieldReader := rfl
    rw [cursorCall, eval, eval, eval_name_of_frame rfl, pure_bind, hreader, pure_bind, evalAll_cons,
      hfunction _ _ hlocal, pure_bind, evalAll_cons, eval_initial hslots, pure_bind, evalAll_cons,
      eval_name_of_frame rfl, pure_bind, evalAll]
    simp only [pure_bind, apply, hloop, map_eq_pure_bind, bind_assoc]
  have hbody : (readFunction name p.scope.fields).body =
      [.give (cursorCall "read_fields" [.attr (path name) "_read_field", initial p.scope.fields,
        .name endName])] := rfl
  have hparams : bindParams (readFunction name p.scope.fields).params [.cursor, .value stop] =
      .ok [(cursorName, .cursor), (endName, .value stop)] := rfl
  rw [invoke, hparams, lift_ok_bind, hbody, execAll, exec, hstart, Codec.readWith, hslots, lift_ok_bind]
  simp only [map_bind, map_pure, bind_assoc, bind_map_left, pure_bind, Option.getD_some]

/-- One call goes to the message and one to each of its fields, before embedded messages are read. -/
theorem CallsRead.step {embedded : Place → Value → Run Value} (h : Linked options root m)
    (hr : options.noRead = false) {depth : Nat}
    (hembedded : CallsRead root m.globals (invoke m.globals depth) embedded) :
    CallsRead root m.globals (invoke m.globals (depth + 2)) (Codec.readWith (Codec.readField embedded)) :=
  callsRead_succ h hr fun _ _ _ hp hslots hchain => onField_fieldFunction hembedded hp hslots hchain

/-- Without calls left, no message is read. -/
theorem callsRead_zero (h : Linked options root m) (hr : options.noRead = false) :
    CallsRead root m.globals (invoke m.globals 0) fun _ _ => throw .tooDeep := by
  intro p hp hkind
  obtain ⟨name, chain, hname, -, hread, -⟩ := h.reader hr hp hkind
  exact ⟨name, _, hname, hread, fun _ => rfl⟩

/-- With one call left, a message is read up to its first field. -/
theorem callsRead_one (h : Linked options root m) (hr : options.noRead = false) :
    CallsRead root m.globals (invoke m.globals 1) (Codec.readWith fun _ _ _ => throw .tooDeep) :=
  callsRead_succ h hr fun _ _ _ _ _ _ _ _ => rfl

/-- Running the emitted reader of a message reads it by its slots. -/
theorem invoke_read (h : Linked options root m) (hr : options.noRead = false) (depth : Nat) :
    CallsRead root m.globals (invoke m.globals (2 * depth)) (Codec.readNested depth) := by
  induction depth with
  | zero => exact callsRead_zero h hr
  | succ depth ih => exact ih.step h hr

end

end Code

end ProtoScribe
