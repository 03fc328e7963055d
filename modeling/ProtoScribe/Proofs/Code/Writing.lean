import ProtoScribe.Codec.Write
import ProtoScribe.Proofs.Code.Evaluation

/-!
# Emitted writers write by slots

Running the function that was emitted to write a message is writing the message by its slots, with the
same fault and the same cursor (`invoke_write`), whatever value it is handed. The parts correspond one
by one: the call for a value to `writeValue`, the test for presence to `isPresent`, and the statement
for a field to `writeSlot`.

A statement may leave a binding of an item behind, so the bindings after it are not determined by the
slots. All that the next statement needs is that the message and the cursor are still bound
(`WriteFrame`).
-/

namespace ProtoScribe.Code

open Run

variable {globals : Bindings} {call : Caller}

/-! ## Bindings of a writer -/

/-- The bindings of a function that writes a message. -/
structure WriteFrame (message : Value) (frame : Bindings) : Prop where
  obj : frame.lookup objName = some (.value message)
  cursor : frame.lookup cursorName = some .cursor
  isLocal : IsLocal frame

/-- Binding an item hides neither the message nor the cursor. -/
theorem WriteFrame.item {message : Value} {frame : Bindings} (h : WriteFrame message frame) (v : Value) :
    WriteFrame message (assign frame itemName (.value v)) where
  obj := by rw [lookup_assign_of_ne _ _ (by decide), h.obj]
  cursor := by rw [lookup_assign_of_ne _ _ (by decide), h.cursor]
  isLocal := h.isLocal.assign (by decide) _

section

variable {message : Value} {frame : Bindings} {s : Slot}

/-- The entry of a message for a slot, or nothing. -/
theorem eval_entryOrNone (h : WriteFrame message frame) :
    eval globals frame call (entryOrNone s.field) =
      Object.value <$> Cursor.lift (Codec.entryOrNone message s) := by
  rw [entryOrNone, eval, eval, eval_name_of_frame h.obj, pure_bind]
  cases message <;> rfl

/-- An entry that was found can be taken. -/
theorem eval_entry (h : WriteFrame message frame) {v : Value}
    (hv : Codec.entryOrNone message s = .ok v) (hne : v ≠ .none) :
    eval globals frame call (entry s.field) = pure (.value v) := by
  rw [entry, eval, eval_name_of_frame h.obj, pure_bind]
  unfold Codec.entryOrNone at hv
  split at hv
  · next entries =>
    cases hv
    have hfind : Value.find? entries s.field.name ≠ none := fun hnone => hne (by rw [hnone]; rfl)
    obtain ⟨w, hw⟩ := Option.ne_none_iff_exists'.1 hfind
    rw [Object.item, hw]
    rfl
  · cases hv

/-! ## Values -/

/-- A call of a message's writer does what `embedded` does. -/
def CallsWrite (root : Scope) (globals : Bindings) (call : Caller)
    (embedded : Place → Value → Run Unit) : Prop :=
  ∀ q, Place.Within root q → q.kind = .message → ∃ name f, q.scope.name = .str name ∧
    Means globals (.attr (path name) "write") (.function f) ∧
    ∀ v, discard (call f [.value v, .cursor]) = embedded q v

theorem exec_eval {e : Expr} {x : Run Unit} (h : discard (eval globals frame call e) = x) :
    exec globals call frame (.eval e) = (fun _ => (frame, none)) <$> x := by
  rw [exec, h, map_eq_pure_bind]

/-- Calling an operation with a tag and a value, as generated code does. -/
theorem eval_writer {m : Cursor.Method} (hm : m ∈ Cursor.Method.all)
    (hcursor : frame.lookup cursorName = some .cursor) {e : Expr} {v : Value}
    (hvalue : eval globals frame call e = pure (.value v)) (tag : Value) :
    eval globals frame call (cursorCall m.name [.const tag, e]) = Object.value <$> m.call [tag, v] := by
  have htag : eval globals frame call (.const tag) = pure (.value tag) := by rw [eval]
  rw [eval_cursorCall hm hcursor, evalAll_cons, htag, pure_bind, evalAll_cons, hvalue, pure_bind, evalAll,
    map_pure, map_pure, pure_bind]
  exact apply_method m [tag, v]

theorem discard_writeField (t : Scalar) (tag v : Value) :
    discard (Object.value <$> (t.writer false).call [tag, v]) = Cursor.writeField t.coding tag v := by
  have hcall : (t.writer false).call [tag, v] = (do Cursor.writeField t.coding tag v; return .none) := rfl
  rw [hcall, discard_eq_map]
  simp

theorem discard_writePacked (t : Scalar) (tag v : Value) :
    discard (Object.value <$> (t.writer true).call [tag, v]) = Cursor.writePacked t.coding tag v := by
  have hcall : (t.writer true).call [tag, v] = (do Cursor.writePacked t.coding tag v; return .none) := rfl
  rw [hcall, discard_eq_map]
  simp

variable {root : Scope} {embedded : Place → Value → Run Unit}

/-- A call to write one value: a message by its own writer, and a scalar by an operation. -/
theorem eval_writeCall (hembedded : CallsWrite root globals call embedded) (h : WriteFrame message frame)
    (hwithin : ∀ q, s.target = .message q → Place.Within root q ∧ q.kind = .message)
    (hpacked : s.field.isPacked s.target = false) {value e : Expr} {v : Value}
    (hvalue : eval globals frame call value = pure (.value v))
    (he : writeCall s.field s.target value = .ok e) :
    discard (eval globals frame call e) = Codec.writeValue embedded s v := by
  unfold writeCall at he
  unfold Codec.writeValue
  rw [hpacked] at he
  cases htarget : s.target with
  | message q =>
    obtain ⟨hq, hkind⟩ := hwithin q htarget
    obtain ⟨name, f, hname, hwrite, hcall⟩ := hembedded q hq hkind
    rw [htarget] at he
    simp only [hname] at he
    cases he
    have htag : eval globals frame call (.const (.int s.field.tag)) = pure (.value (.int s.field.tag)) := by
      rw [eval]
    have hmember : Object.cursor.member "write_message" = pure .messageWriter := rfl
    rw [cursorCall, eval, eval, eval_name_of_frame h.cursor, pure_bind, hmember, pure_bind,
      evalAll_cons, htag, pure_bind, evalAll_cons, hwrite frame call h.isLocal, pure_bind, evalAll_cons,
      hvalue, pure_bind, evalAll]
    simp only [map_pure, pure_bind, apply, hcall]
    simp [discard_eq_map]
  | enumeration q =>
    rw [htarget] at he
    cases he
    rw [eval_writer (writer_mem .enum) h.cursor hvalue, discard_writeField]
  | scalar t =>
    rw [htarget] at he
    cases he
    rw [eval_writer (writer_mem t) h.cursor hvalue, discard_writeField]

/-! ## Statements -/

/-- A statement that gives no result and leaves the message and the cursor bound. -/
def WroteAs (message : Value) (ended : Bindings × Option Object) (_ : Unit) : Prop :=
  ended.2 = none ∧ WriteFrame message ended.1

theorem matches_of_exec {x : Run (Bindings × Option Object)} {y : Run Unit} (h : WriteFrame message frame)
    (hx : x = (fun _ => (frame, none)) <$> y) : Matches (WroteAs message) x y := by
  rw [hx]
  intro c
  cases hy : y c with
  | ok a c' => exact .inl ⟨(frame, none), a, c', by rw [map_apply, hy], rfl, rfl, h⟩
  | error e c' => exact .inr ⟨e, c', by rw [map_apply, hy], rfl⟩

theorem matches_execAll_nil (h : WriteFrame message frame) :
    Matches (WroteAs message) (execAll globals call frame []) (pure ()) := by
  rw [execAll]
  exact .pure ⟨rfl, h⟩

/-- The frame after one statement is good for the next one, so statements are matched one by one. -/
theorem matches_execAll_cons {stmt : Stmt} {rest : List Stmt} {x y : Run Unit}
    (hstmt : Matches (WroteAs message) (exec globals call frame stmt) x)
    (hrest : ∀ frame, WriteFrame message frame →
      Matches (WroteAs message) (execAll globals call frame rest) y) :
    Matches (WroteAs message) (execAll globals call frame (stmt :: rest)) (x >>= fun _ => y) := by
  rw [execAll]
  refine hstmt.bind ?_
  rintro ⟨frame', result⟩ _ ⟨rfl, hframe⟩
  exact hrest frame' hframe

theorem matches_execAll_singleton {stmt : Stmt} {x : Run Unit}
    (hstmt : Matches (WroteAs message) (exec globals call frame stmt) x) :
    Matches (WroteAs message) (execAll globals call frame [stmt]) x := by
  have hx : x = x >>= fun _ => pure () := (bind_pure_unit).symm
  rw [hx]
  exact matches_execAll_cons hstmt fun _ => matches_execAll_nil

/-- A conditional whose test means what is asked. -/
theorem matches_branch {test : Expr} {body : List Stmt} {o : Object} {x : Run Unit}
    (h : WriteFrame message frame) (htest : eval globals frame call test = pure o)
    (hbody : o.truthy = true → Matches (WroteAs message) (execAll globals call frame body) x) :
    Matches (WroteAs message) (exec globals call frame (.branch test body []))
      (if o.truthy then x else pure ()) := by
  rw [exec, htest, pure_bind]
  split
  · next htrue => exact hbody htrue
  · exact matches_execAll_nil h

/-- A loop over items, which leaves the last of them bound. -/
theorem matches_forEach {e : Expr} {f : Value → Run Unit} (items : List Value)
    (h : WriteFrame message frame)
    (he : ∀ frame v, WriteFrame message frame → frame.lookup itemName = some (.value v) →
      discard (eval globals frame call e) = f v) :
    Matches (WroteAs message)
      (forEach (fun v frame => execAll globals call (assign frame itemName (.value v)) [.eval e]) frame items)
      (items.forM f) := by
  induction items generalizing frame with
  | nil => exact .pure ⟨rfl, h⟩
  | cons v rest ih =>
    rw [forEach]
    have hitem := he _ v (h.item v) (lookup_assign_self _ _ _)
    have hbody := matches_execAll_singleton (matches_of_exec (h.item v) (exec_eval hitem))
    refine hbody.bind ?_
    rintro ⟨frame', result⟩ _ ⟨rfl, hframe⟩
    exact ih hframe

/-- The test for presence. -/
theorem eval_presence (h : WriteFrame message frame) {v : Value}
    (hv : Codec.entryOrNone message s = .ok v) :
    ∃ o, eval globals frame call (presence s.field s.target) = pure o ∧
      o.truthy = Codec.isPresent s v := by
  have hentry : eval globals frame call (entryOrNone s.field) = pure (.value v) := by
    rw [eval_entryOrNone h, hv]
    rfl
  have hset : eval globals frame call (.isSet (entryOrNone s.field)) =
      pure (.value (.bool (decide (v ≠ .none)))) := by
    rw [eval, hentry, pure_bind]
    cases v <;> rfl
  unfold presence Codec.isPresent Slot.isMessage
  by_cases hplain : s.target.isMessage = true ∨ s.field.default = .none
  · exact ⟨_, by rw [if_pos hplain, hset], by rw [if_pos hplain]; rfl⟩
  · by_cases hdefault : s.field.default.truthy = true
    · rw [if_neg hplain, if_neg (by simp [hdefault]), if_neg hplain, if_pos hdefault, eval, hset, pure_bind]
      by_cases hne : v = .none
      · exact ⟨_, if_neg (by simp [hne, Object.truthy, Value.truthy]), by simp [hne, Object.truthy, Value.truthy]⟩
      · have hdiffer : eval globals frame call (.differ (entry s.field) (.const s.field.default)) =
            pure (.value (.bool (!v.equals s.field.default))) := by
          rw [eval, eval_entry h hv hne, eval]
          rfl
        refine ⟨_, (if_pos (by simp [hne, Object.truthy, Value.truthy])).trans hdiffer, ?_⟩
        simp [hne, Object.truthy, Value.truthy]
    · exact ⟨_, by rw [if_neg hplain, if_pos (by simp [hdefault]), hentry],
        by rw [if_neg hplain, if_neg hdefault]; rfl⟩

/-- A present value is set. -/
theorem ne_none_of_isPresent {v : Value} (h : Codec.isPresent s v = true) : v ≠ .none := by
  rintro rfl
  unfold Codec.isPresent at h
  split at h
  · simp at h
  · split at h
    · simp at h
    · cases h

/-- Where there is no entry to look at, the test fails with what looking fails with. -/
theorem eval_presence_error (h : WriteFrame message frame) {e : Fault}
    (hv : Codec.entryOrNone message s = .error e) :
    eval globals frame call (presence s.field s.target) = throw e := by
  have hentry : eval globals frame call (entryOrNone s.field) = throw e := by
    rw [eval_entryOrNone h, hv]
    rfl
  have hset : eval globals frame call (.isSet (entryOrNone s.field)) = throw e := by
    rw [eval, hentry]
    rfl
  unfold presence
  split
  · exact hset
  · split
    · exact hentry
    · rw [eval, hset]
      rfl

/-- What is emitted for a slot: a packed run, a loop over items, or a single call. -/
inductive WriteForm (s : Slot) : Stmt → Prop
  | packed (t : Scalar) (repeated : s.field.repeated = true) (as : s.packedAs? = some t)
    (packable : t.coding.packable = true) : WriteForm s (.branch (entryOrNone s.field)
      [.eval (cursorCall (t.writer true).name [.const (.int s.field.tag), entry s.field])] [])
  | loop (e : Expr) (repeated : s.field.repeated = true) (packed : s.field.isPacked s.target = false)
    (emitted : writeCall s.field s.target (.name itemName) = .ok e) : WriteForm s
      (.branch (entryOrNone s.field) [.each itemName (entry s.field) [.eval e]] [])
  | single (e : Expr) (single : s.field.repeated = false) (packed : s.field.isPacked s.target = false)
    (emitted : writeCall s.field s.target (entry s.field) = .ok e) : WriteForm s
      (.branch (presence s.field s.target) [.eval e] [])

/-- Only packable built-in types are written packed. -/
theorem scalar?_of_isPacked (h : s.field.isPacked s.target = true) :
    ∃ t, s.target.scalar? = some t ∧ t.coding.packable = true := by
  have hpackable : s.target.packable = true := by
    simp only [Field.isPacked, Field.packable, Bool.and_eq_true] at h
    exact h.2.2
  unfold Target.packable at hpackable
  split at hpackable
  · next t ht => exact ⟨t, ht, hpackable⟩
  · cases hpackable

/-- The three forms that a statement for writing has. -/
theorem writeForm_of_ok {p : Place} (htarget : p.target s.field = .ok s.target) {stmt : Stmt}
    (h : writeStatement p s.field = .ok stmt) : WriteForm s stmt := by
  obtain ⟨t, ht, h⟩ := Outcome.bind_ok h
  rw [htarget] at ht
  cases ht
  split at h
  · next hrep =>
    split at h
    · next hpacked =>
      obtain ⟨e, he, h⟩ := Outcome.bind_ok h
      cases h
      obtain ⟨t, ht, hpackable⟩ := scalar?_of_isPacked hpacked
      have has : s.packedAs? = some t := by rw [Slot.packedAs?, if_pos hpacked, ht]
      have he : e = cursorCall (t.writer true).name [.const (.int s.field.tag), entry s.field] := by
        unfold writeCall at he
        rw [hpacked] at he
        split at he
        · next htarget =>
          rw [htarget] at ht
          cases ht
        · next htarget =>
          rw [htarget] at ht
          cases ht
          cases he
          rfl
        · next htarget =>
          rw [htarget] at ht
          cases ht
          cases he
          rfl
      rw [he]
      exact .packed t hrep has hpackable
    · next hpacked =>
      obtain ⟨e, he, h⟩ := Outcome.bind_ok h
      cases h
      exact .loop e hrep (by simpa using hpacked) he
  · next hrep =>
    obtain ⟨e, he, h⟩ := Outcome.bind_ok h
    cases h
    have hrep : s.field.repeated = false := by simpa using hrep
    exact .single e hrep (by simp [Field.isPacked, Field.packable, hrep]) he

/-- The statement for a field writes what its slot writes. -/
theorem exec_writeStatement (hembedded : CallsWrite root globals call embedded)
    (h : WriteFrame message frame)
    (hwithin : ∀ q, s.target = .message q → Place.Within root q ∧ q.kind = .message) {stmt : Stmt}
    (hform : WriteForm s stmt) :
    Matches (WroteAs message) (exec globals call frame stmt) (Codec.writeSlot embedded message s) := by
  rw [Codec.writeSlot]
  -- every form of statement looks the entry up first, and fails first where that fails
  cases hv : Codec.entryOrNone message s with
  | error e =>
    have hentry : eval globals frame call (entryOrNone s.field) = throw e := by
      rw [eval_entryOrNone h, hv]
      rfl
    rw [lift_error_bind]
    cases hform with
    | packed t | loop e =>
      rw [exec, hentry]
      exact .throw _
    | single e =>
      rw [exec, eval_presence_error h hv]
      exact .throw _
  | ok v =>
    have hentry : eval globals frame call (entryOrNone s.field) = pure (.value v) := by
      rw [eval_entryOrNone h, hv]
      rfl
    have hne : (Object.value v).truthy = true → v ≠ .none := by
      rintro htrue rfl
      cases htrue
    rw [lift_ok_bind]
    cases hform with
    | packed t repeated as packable =>
      rw [if_pos repeated]
      refine matches_branch h hentry fun htrue => matches_execAll_singleton (matches_of_exec h ?_)
      rw [Codec.writeItems, as]
      refine exec_eval ?_
      rw [eval_writer (packedWriter_mem packable) h.cursor (eval_entry h hv (hne htrue)),
        discard_writePacked]
    | loop e repeated packed emitted =>
      rw [if_pos repeated]
      refine matches_branch h hentry fun htrue => matches_execAll_singleton ?_
      have has : s.packedAs? = none := by rw [Slot.packedAs?, packed]; rfl
      rw [exec, eval_entry h hv (hne htrue), pure_bind, Codec.writeItems, has]
      rw [Object.toValue, lift_ok_bind]
      cases hitems : v.items? with
      | none => exact .throw _
      | some items =>
        refine matches_forEach items h fun frame w hframe hitem => ?_
        exact eval_writeCall hembedded hframe hwithin packed (eval_name_of_frame hitem) emitted
    | single e single packed emitted =>
      obtain ⟨o, htest, hpresent⟩ : ∃ o,
          eval globals frame call (presence s.field s.target) = pure o ∧
            o.truthy = Codec.isPresent s v := eval_presence h hv
      rw [if_neg (by simp [single]), ← hpresent]
      refine matches_branch h htest fun htrue => matches_execAll_singleton (matches_of_exec h ?_)
      have hset : v ≠ .none := ne_none_of_isPresent (hpresent ▸ htrue)
      exact exec_eval (eval_writeCall hembedded h hwithin packed (eval_entry h hv hset) emitted)

/-! ## Messages -/

/-- The body of a writer writes what its slots write, one by one. -/
theorem execAll_write (hembedded : CallsWrite root globals call embedded) {slots : List Slot}
    {body : List Stmt} (hslots : List.Forall₂ WriteForm slots body)
    (hwithin : ∀ s ∈ slots, ∀ q, s.target = .message q → Place.Within root q ∧ q.kind = .message)
    (h : WriteFrame message frame) :
    Matches (WroteAs message) (execAll globals call frame body)
      (slots.forM (Codec.writeSlot embedded message)) := by
  induction hslots generalizing frame with
  | nil => exact matches_execAll_nil h
  | cons hform _ ih =>
    refine matches_execAll_cons (exec_writeStatement hembedded h (hwithin _ (by simp)) hform) ?_
    exact fun frame hframe => ih (fun s hs => hwithin s (by simp [hs])) hframe

/-- Statements were emitted for all slots. -/
theorem slots_of_writeStatements {p : Place} {body : List Stmt}
    (h : p.scope.fields.mapM (writeStatement p) = .ok body) :
    ∃ slots, p.slots = .ok slots ∧ List.Forall₂ WriteForm slots body := by
  have hall : ∀ fields body, List.Forall₂ (fun f stmt => writeStatement p f = .ok stmt) fields body →
      ∃ slots : List Slot,
        List.Forall₂ (fun f s => s.field = f ∧ p.target f = .ok s.target) fields slots ∧
        List.Forall₂ WriteForm slots body := by
    intro fields body hbody
    induction hbody with
    | nil => exact ⟨[], .nil, .nil⟩
    | @cons f stmt fields body hstmt _ ih =>
      obtain ⟨slots, hslots, hforms⟩ := ih
      obtain ⟨t, ht, -⟩ := Outcome.bind_ok hstmt
      exact ⟨⟨f, t⟩ :: slots, .cons ⟨rfl, ht⟩ hslots, .cons (writeForm_of_ok ht hstmt) hforms⟩
  obtain ⟨slots, hslots, hforms⟩ := hall _ _ (Outcome.mapM_ok h)
  exact ⟨slots, Place.slots_eq_ok hslots, hforms⟩

end

/-- Running the emitted writer of a message writes it by its slots. -/
theorem invoke_write {options : Options} {root : Scope} {m : Module} (h : Linked options root m)
    (hw : options.noWrite = false) (depth : Nat) :
    CallsWrite root m.globals (invoke m.globals depth) (Codec.writeNested depth) := by
  induction depth with
  | zero =>
    intro p hp hkind
    obtain ⟨name, body, hname, -, hwrite⟩ := h.writer hw hp hkind
    exact ⟨name, _, hname, hwrite, fun _ => rfl⟩
  | succ depth ih =>
    intro p hp hkind
    obtain ⟨name, body, hname, hbody, hwrite⟩ := h.writer hw hp hkind
    refine ⟨name, _, hname, hwrite, fun v => ?_⟩
    obtain ⟨slots, hslots, hforms⟩ := slots_of_writeStatements hbody
    have hframe : WriteFrame v [(objName, .value v), (cursorName, .cursor)] :=
      ⟨rfl, rfl, (isLocal_nil.cons (by decide) _).cons (by decide) _⟩
    have hrun := execAll_write ih hforms (fun s hs q hq => hp.slot hslots hs hq) hframe
    have hparams : bindParams (writeFunction body).params [.value v, .cursor] =
        .ok [(objName, .value v), (cursorName, .cursor)] := rfl
    rw [invoke, hparams, lift_ok_bind, Codec.writeNested, hslots, lift_ok_bind]
    exact hrun.discard_eq _

end ProtoScribe.Code
