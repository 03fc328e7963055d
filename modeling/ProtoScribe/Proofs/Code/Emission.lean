import ProtoScribe.Proofs.Code.Refinement
import ProtoScribe.Proofs.Cursor.Emission

/-!
# Generated writers only append

Whatever a generated writer is handed, well-typed or not, it appends to the buffer and leaves the rest of
the cursor alone, also when it fails inside an embedded message or a packed run. What it appends and how
it ends does not depend on the cursor (`writing_appends`). So messages that are written in turn stand one
behind the other, each as it would be written on its own.

The induction is on the depth that messages may nest to; a slot writes because whatever it embeds does.
-/

namespace ProtoScribe

open Run

namespace Codec

variable {embedded : Place → Value → Run Unit}

theorem writes_writeValue (h : ∀ q v, Writes (embedded q v)) (s : Slot) (v : Value) :
    Writes (writeValue embedded s v) := by
  unfold writeValue
  split
  · exact Cursor.writes_writeMessage _ (h _ v)
  · exact Cursor.writes_writeField _ _ v
  · exact Cursor.writes_writeField _ _ v

theorem writes_writeItems (h : ∀ q v, Writes (embedded q v)) (s : Slot) (v : Value) :
    Writes (writeItems embedded s v) := by
  unfold writeItems
  split
  · exact Cursor.writes_writePacked _ _ v
  · split
    · exact .forM fun item _ => writes_writeValue h s item
    · exact .throw _

/-- A field writes if embedded messages do, whatever is found under its name. -/
theorem writes_writeSlot (h : ∀ q v, Writes (embedded q v)) (message : Value) (s : Slot) :
    Writes (writeSlot embedded message s) := by
  refine (Writes.lift _).bind fun v => ?_
  split
  · split
    · exact writes_writeItems h s v
    · exact .pure _
  · split
    · exact writes_writeValue h s v
    · exact .pure _

/-- The induction is on the depth; below it, nothing is written. -/
theorem writes_writeNested (depth : Nat) (p : Place) (message : Value) :
    Writes (writeNested depth p message) := by
  induction depth generalizing p message with
  | zero => exact .throw _
  | succ depth ih =>
    refine (Writes.lift _).bind fun slots => .forM fun s _ => ?_
    exact writes_writeSlot ih message s

theorem writes_write (p : Place) (message : Value) : Writes (write p message) :=
  writes_writeNested _ p message

end Codec

namespace Code

variable {s : Schema} {options : Options} {m : Module} {p : Place} {path : String}

/-- A compiled writer writes, whatever it is given. -/
theorem Compiled.writes_write (h : Compiled s options m p path) (hw : options.noWrite = false)
    (v : Value) : Writes (m.write path v) := by
  rw [h.write_eq hw]
  exact Codec.writes_write p v

/-- The writer is looked up once before the first message, and it is there. -/
theorem Compiled.writeAll_eq (h : Compiled s options m p path) (hw : options.noWrite = false)
    (vs : List Value) : m.writeAll path vs = vs.forM (m.write path) := by
  obtain ⟨root, -, hp, hlinked⟩ := h.linked
  obtain ⟨name, members, hname, hclass, -, -, hexported⟩ := hlinked p hp h.isMessage
  rw [h.path_eq] at hname
  cases hname
  obtain ⟨body, -, hwrite⟩ := hclass.writer hw
  have hfunction : m.function path "write" = .ok (writeFunction body) := by
    have hlookup : members.lookup "write" = some (.function (writeFunction body)) := hwrite
    simp only [Module.function, hexported, hlookup]
  rw [Module.writeAll, hfunction]
  rfl

/-- A generated writer appends bytes that depend on the message alone, with an outcome that depends on
the message alone, and changes nothing else; and messages are written in turn, all of them with success,
exactly when each one is on its own, with their bytes one behind the other. -/
theorem writing_appends (h : Compiled s options m p path) (hw : options.noWrite = false) :
    (∀ v, ∃ bytes r, ∀ c, m.write path v c = Cursor.lift r { c with buf := c.buf ++ bytes }) ∧
    ∀ vs c c', m.writeAll path vs c = .ok () c' ↔
      ∃ parts, List.Forall₂
          (fun v part => ∃ c₁, (m.write path v >>= fun _ => Cursor.finish) .empty = .ok part c₁) vs parts ∧
        c' = { c with buf := c.buf ++ parts.flatten } := by
  have hwrites := h.writes_write hw
  refine ⟨hwrites, fun vs c c' => ?_⟩
  rw [h.writeAll_eq hw, forM_ok_iff hwrites]
  simp only [Cursor.appends_iff_finish (hwrites _)]

/-- A node whose innermost value is no number. -/
def brokenNode : Value :=
  .dict [(.str "value", .int 1),
    (.str "next", .dict [(.str "next", .dict [(.str "value", .str "one")])])]

/-- Whether writing a message of a schema to an empty buffer fails and leaves some bytes behind. -/
def failsLeaving (s : Schema) (path : String) (v : Value) (e : Fault) (bytes : List UInt8) : Bool :=
  match Module.ofSchema s {} with
  | .ok m => match m.write path v .empty with
    | .ok _ _ => false
    | .error e' c => e' = e && c.buf = bytes
  | .error _ => false

/-- The keys of the two embedded messages and of the value stay, without lengths. -/
theorem brokenNode_appends : ∃ m, Module.ofSchema nodeSchema {} = .ok m ∧
    ∀ c, m.write "Node" brokenNode c = .error .badValue { c with buf := c.buf ++ [8, 1, 18, 18, 8] } := by
  obtain ⟨m, p, h, -⟩ : ∃ m p, Compiled nodeSchema {} m p "Node" ∧ true :=
    exists_compiled (fun _ => true) (by decide +kernel) (by decide +kernel) (by decide +kernel)
  obtain ⟨bytes, r, hwrite⟩ := (writing_appends h rfl).1 brokenNode
  have hfails : failsLeaving nodeSchema "Node" brokenNode .badValue [8, 1, 18, 18, 8] = true := by
    decide +kernel
  unfold failsLeaving at hfails
  rw [h.loaded] at hfails
  simp only [hwrite] at hfails
  cases r with
  | ok _ => cases hfails
  | error e =>
    simp only [lift_error_apply, Bool.and_eq_true, decide_eq_true_eq] at hfails
    obtain ⟨rfl, hbytes⟩ := hfails
    have hbytes : bytes = [8, 1, 18, 18, 8] := hbytes
    exact ⟨m, h.loaded, fun c => hbytes ▸ hwrite c⟩

end Code

end ProtoScribe
