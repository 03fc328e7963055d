import ProtoScribe.Cursor.Script
import ProtoScribe.Proofs.Cursor.Growth

/-!
# Scripts keep a cursor in order

Whatever the steps of a script do to a cursor, and whatever the programs do that they call back, the
cursor stays in order and only grows, also where steps fail (`scripts_keep_order`), as long as none of
them jumps. A script also ends, but for one case: a step that reads fields without end, and whose
programs may both write and finish, feeds itself. `endless_script_runs_on` is a script that does.

What a step may do is told by its parts, the step itself and all steps that its programs may come to. What
it does do is told by running it with fewer steps allowed: it has written nothing if it ends, and ends
alike, where no step that writes is allowed (`WritesNothing`).
-/

namespace ProtoScribe.Cursor

mutual

/-- What is part of a step: the step itself, and all steps that its programs may come to. -/
inductive Step.Has : Step → Step → Prop
  | refl (step : Step) : Step.Has step step
  | readFields {onField : Nat → Value → Program} {stop init : Value} {part : Step} (tag : Nat) (acc : Value)
      (h : Program.Has (onField tag acc) part) : Step.Has (.readFields onField stop init) part
  | readMessage {onField : Nat → Value → Program} {init : Value} {part : Step} (tag : Nat) (acc : Value)
      (h : Program.Has (onField tag acc) part) : Step.Has (.readMessage onField init) part
  | writeMessage {tag : Value} {body : Program} {part : Step} (h : Program.Has body part) :
      Step.Has (.writeMessage tag body) part
  | writeRaw {body : Program} {part : Step} (h : Program.Has body part) : Step.Has (.writeRaw body) part

/-- The steps that a program may come to, whatever it finds, and their parts. -/
inductive Program.Has : Program → Step → Prop
  | look {next : Cursor → Program} {part : Step} (c : Cursor) (h : Program.Has (next c) part) :
      Program.Has (.look next) part
  | step {step : Step} {next : Except Fault Value → Program} {part : Step} (h : Step.Has step part) :
      Program.Has (.andThen step next) part
  | next {step : Step} {next : Except Fault Value → Program} {part : Step} (r : Except Fault Value)
      (h : Program.Has (next r) part) : Program.Has (.andThen step next) part

end

namespace Step

def seeks : Step → Bool
  | .seek _ => true
  | _ => false

def writes : Step → Bool
  | .call name _ => nameWrites name
  | .writeMessage _ _ | .writeRaw _ => true
  | _ => false

/-- Whether a step itself makes readable what was written. -/
def finishes : Step → Bool
  | .call name _ => Method.ofName? name = some .finish
  | _ => false

/-- Programs for fields that may come to a step of some kind. -/
def MayRun (kind : Step → Bool) (onField : Nat → Value → Program) : Prop :=
  ∃ tag acc part, (onField tag acc).Has part ∧ kind part = true

/-- A step may itself make more fields for itself to read, with nothing to stop it. -/
def RunsOn : Step → Prop
  | .readFields onField stop _ =>
    Session.isEndless stop = true ∧ MayRun writes onField ∧ MayRun finishes onField
  | _ => False

/-- From a cursor, a step ends without having come to one that writes. -/
def WritesNothing (step : Step) (c : Cursor) : Prop :=
  ∃ r, step.runWhere (fun part => !part.writes) c = some r

structure Within (W F : Prop) (part : Step) : Prop where
  seeks : part.seeks = false
  writes : part.writes = true → W
  finishes : part.finishes = true → F

end Step

/-! ## What a step keeps -/

section

open Session

variable {W F : Prop} (allowed : Step → Bool)

mutual

/-- A step grows the cursor as its parts may, as far as these are allowed. -/
theorem Step.keeps_runWhere : (step : Step) →
    (∀ part, step.Has part → allowed part = true → part.Within W F) →
    Keeps (Grows W F) (step.runWhere allowed)
  | .call name args, h => by
    refine keeps_permit fun hallowed => ?_
    have hcall := h _ (.refl _) hallowed
    exact keeps_callByName name args hcall.writes fun hm => hcall.finishes (by simp [Step.finishes, hm])
  | .seek pos, h => by
    refine keeps_permit fun hallowed => ?_
    have hseek := (h _ (.refl _) hallowed).seeks
    cases hseek
  | .setWireType wireType, _ => by
    refine keeps_permit fun _ => .andReturn allowsReading_grows ?_ _
    exact keeps_ofRun fun c => (moves_setWireType c wireType).grows
  | .readFields onField stop init, h => by
    refine keeps_permit fun _ => keeps_readFields allowsReading_grows (fun tag acc => ?_) stop init
    exact Program.keeps_runWhere (onField tag acc) fun part hpart => h part (.readFields tag acc hpart)
  | .readMessage onField init, h => by
    refine keeps_permit fun _ => keeps_readMessage allowsReading_grows (fun tag acc => ?_) init
    exact Program.keeps_runWhere (onField tag acc) fun part hpart => h part (.readMessage tag acc hpart)
  | .writeMessage tag body, h => by
    have hbody := Program.keeps_runWhere body fun part hpart => h part (.writeMessage hpart)
    refine keeps_permit fun hallowed => .andReturn allowsReading_grows ?_ _
    exact keeps_writeMessage ((h _ (.refl _) hallowed).writes rfl) tag (hbody.andReturn allowsReading_grows ())
  | .writeRaw body, h => by
    have hbody := Program.keeps_runWhere body fun part hpart => h part (.writeRaw hpart)
    refine keeps_permit fun hallowed => .andReturn allowsReading_grows ?_ _
    exact keeps_writeFramed ((h _ (.refl _) hallowed).writes rfl) (hbody.andReturn allowsReading_grows ())

/-- A program grows the cursor as the steps may that it comes to. -/
theorem Program.keeps_runWhere : (program : Program) →
    (∀ part, program.Has part → allowed part = true → part.Within W F) →
    Keeps (Grows W F) (program.runWhere allowed)
  | .give v, _ => keeps_pure allowsReading_grows v
  | .fail e, _ => by
    have hthrow : Run.Reads (fun _ => True) (throw e : Run Value) := .throw trivial
    exact keeps_of_reads allowsReading_grows hthrow
  | .look next, h => by
    refine .bind allowsReading_grows (keeps_get allowsReading_grows) fun c => ?_
    exact Program.keeps_runWhere (next c) fun part hpart => h part (.look c hpart)
  | .andThen step next, h => by
    have hstep := Step.keeps_runWhere step fun part hpart => h part (.step hpart)
    refine .bind allowsReading_grows hstep.attempt fun r => ?_
    exact Program.keeps_runWhere (next r) fun part hpart => h part (.next r hpart)

end

variable {allowed} {allowed' : Step → Bool}

mutual

/-- A step ends alike where more of its parts are allowed. -/
theorem Step.endsAs_runWhere : (step : Step) →
    (∀ part, step.Has part → allowed part = true → allowed' part = true) →
    EndsAs (step.runWhere allowed) (step.runWhere allowed')
  | .call _ _, h => .permit (h _ (.refl _)) (.refl _)
  | .seek _, h => .permit (h _ (.refl _)) (.refl _)
  | .setWireType _, h => .permit (h _ (.refl _)) (.refl _)
  | .readFields onField stop init, h => by
    refine .permit (h _ (.refl _)) (endsAs_readFields (fun tag acc => ?_) stop init)
    exact Program.endsAs_runWhere (onField tag acc) fun part hpart => h part (.readFields tag acc hpart)
  | .readMessage onField init, h => by
    refine .permit (h _ (.refl _)) (endsAs_readMessage (fun tag acc => ?_) init)
    exact Program.endsAs_runWhere (onField tag acc) fun part hpart => h part (.readMessage tag acc hpart)
  | .writeMessage tag body, h => by
    have hbody := Program.endsAs_runWhere body fun part hpart => h part (.writeMessage hpart)
    refine .permit (h _ (.refl _)) (.bind (endsAs_writeMessage tag ?_) fun _ => .refl _)
    exact .bind hbody fun _ => .refl _
  | .writeRaw body, h => by
    have hbody := Program.endsAs_runWhere body fun part hpart => h part (.writeRaw hpart)
    refine .permit (h _ (.refl _)) (.bind (endsAs_writeFramed ?_) fun _ => .refl _)
    exact .bind hbody fun _ => .refl _

theorem Program.endsAs_runWhere : (program : Program) →
    (∀ part, program.Has part → allowed part = true → allowed' part = true) →
    EndsAs (program.runWhere allowed) (program.runWhere allowed')
  | .give _, _ => .refl _
  | .fail _, _ => .refl _
  | .look next, h =>
    .bind (.refl _) fun c => Program.endsAs_runWhere (next c) fun part hpart => h part (.look c hpart)
  | .andThen step next, h => by
    have hstep := Step.endsAs_runWhere step fun part hpart => h part (.step hpart)
    refine .bind hstep.attempt fun r => ?_
    exact Program.endsAs_runWhere (next r) fun part hpart => h part (.next r hpart)

end

/-- A step of which no part writes writes nothing, wherever it ends. -/
theorem Step.writesNothing_of_parts {step : Step} (h : ∀ part, step.Has part → part.writes = false) {c : Cursor}
    {r : EStateM.Result Fault Cursor Value} (hr : step.run c = some r) : step.WritesNothing c := by
  refine ⟨r, step.endsAs_runWhere (fun part hpart _ => ?_) c r hr⟩
  rw [h part hpart]
  rfl

end

/-! ## Steps that end -/

section

open Session

structure Step.Halts (part : Step) : Prop where
  seeks : part.seeks = false
  not_runsOn : ¬ part.RunsOn

/-- Programs without jumps let the cursor grow as they may write and finish. -/
theorem Program.keeps_onField {onField : Nat → Value → Program}
    (h : ∀ tag acc part, (onField tag acc).Has part → part.seeks = false) (tag : Nat) (acc : Value) :
    Keeps (Grows (Step.MayRun Step.writes onField) (Step.MayRun Step.finishes onField))
      ((onField tag acc).runWhere fun _ => true) := by
  refine Program.keeps_runWhere _ _ fun part hpart _ => ⟨h tag acc part hpart, fun hkind => ?_, fun hkind => ?_⟩
  · exact ⟨tag, acc, part, hpart, hkind⟩
  · exact ⟨tag, acc, part, hpart, hkind⟩

mutual

/-- A step ends if no part of it runs on. Inside it, only a loop over fields needs an argument. -/
theorem Step.ends_run : (step : Step) → (∀ part, step.Has part → part.Halts) → Ends step.run
  | .call name args, _ => ends_ofRun (callByName name args)
  | .seek pos, _ => (ends_ofRun (Cursor.seek pos)).andReturn _
  | .setWireType wireType, _ => (ends_ofRun (Cursor.setWireType wireType)).andReturn _
  | .readFields onField stop init, h => by
    have hgrows := Program.keeps_onField fun tag acc part hpart => (h part (.readFields tag acc hpart)).seeks
    refine ends_readFields (fun tag acc => ?_) hgrows (fun hendless => ?_) init
    · exact Program.ends_runWhere (onField tag acc) fun part hpart => h part (.readFields tag acc hpart)
    · -- without a stop, either no program writes or none finishes
      have hstays := (h _ (.refl _)).not_runsOn
      exact Classical.not_and_iff_not_or_not.1 fun hboth => hstays ⟨hendless, hboth⟩
  | .readMessage onField init, h => by
    have hgrows := Program.keeps_onField fun tag acc part hpart => (h part (.readMessage tag acc hpart)).seeks
    refine ends_readMessage (fun tag acc => ?_) hgrows init
    exact Program.ends_runWhere (onField tag acc) fun part hpart => h part (.readMessage tag acc hpart)
  | .writeMessage tag body, h => by
    have hbody := Program.ends_runWhere body fun part hpart => h part (.writeMessage hpart)
    exact (ends_writeMessage tag (hbody.andReturn ())).andReturn _
  | .writeRaw body, h => by
    have hbody := Program.ends_runWhere body fun part hpart => h part (.writeRaw hpart)
    exact (ends_writeFramed (hbody.andReturn ())).andReturn _

theorem Program.ends_runWhere : (program : Program) → (∀ part, program.Has part → part.Halts) →
    Ends (program.runWhere fun _ => true)
  | .give v, _ => ends_ofRun (pure v)
  | .fail e, _ => ends_ofRun (throw e)
  | .look next, h =>
    .bind (ends_ofRun get) fun c => Program.ends_runWhere (next c) fun part hpart => h part (.look c hpart)
  | .andThen step next, h => by
    have hstep := Step.ends_run step fun part hpart => h part (.step hpart)
    refine hstep.attempt.bind fun r => ?_
    exact Program.ends_runWhere (next r) fun part hpart => h part (.next r hpart)

end

end

/-! ## Scripts -/

/-- The cursor is in order after a step, neither its position nor its readable length has moved back,
and what its buffer held is still in front; it is the whole buffer if the step has written nothing. -/
structure Outcome.Sound (step : Step) (o : Outcome) : Prop where
  inOrder : o.after.InOrder
  pos_le : o.before.pos ≤ o.after.pos
  length_le : o.before.length ≤ o.after.length
  front : o.before.buf <+: o.after.buf
  buf_eq : step.WritesNothing o.before → o.after.buf = o.before.buf

/-- Outcomes of steps that each start where the one before has ended, and are all sound. -/
inductive Trace : Cursor → List Step → List Outcome → Prop
  | nil (c : Cursor) : Trace c [] []
  | cons {c : Cursor} {step : Step} {steps : List Step} {o : Outcome} {outcomes : List Outcome}
      (start : o.before = c) (sound : o.Sound step) (later : Trace o.after steps outcomes) :
      Trace c (step :: steps) (o :: outcomes)

/-- An outcome remembers where its step has started. -/
theorem before_ofResult (c : Cursor) (r : EStateM.Result Fault Cursor Value) :
    (Outcome.ofResult c r).before = c := by
  cases r <;> rfl

theorem after_ofResult (c : Cursor) (r : EStateM.Result Fault Cursor Value) :
    (Outcome.ofResult c r).after = Session.final r := by
  cases r <;> rfl

/-- A step without jumps that has written nothing leaves the buffer as it was. -/
theorem Step.WritesNothing.buf_eq {step : Step} {c : Cursor} (h : step.WritesNothing c)
    (hseeks : ∀ part, step.Has part → part.seeks = false) {r : EStateM.Result Fault Cursor Value}
    (hr : step.run c = some r) : (Session.final r).buf = c.buf := by
  obtain ⟨r', hr'⟩ := h
  have hsame : step.run c = some r' := step.endsAs_runWhere (fun _ _ _ => rfl) c r' hr'
  obtain rfl : r = r' := Option.some.inj (hr.symm.trans hsame)
  have hgrows : Grows False True c (Session.final r) := by
    refine step.keeps_runWhere _ (fun part hpart hallowed => ⟨hseeks part hpart, fun hwrites => ?_, ?_⟩) c r hr'
    · rw [hwrites] at hallowed
      cases hallowed
    · exact fun _ => trivial
  exact hgrows.buf_eq id

/-- One step is sound where the cursor is in order. -/
theorem sound_ofResult {step : Step} (hseeks : ∀ part, step.Has part → part.seeks = false) {c : Cursor}
    (hc : c.InOrder) {r : EStateM.Result Fault Cursor Value} (hr : step.run c = some r) :
    (Outcome.ofResult c r).Sound step := by
  have hwithin : ∀ part, step.Has part → true = true → part.Within True True := fun part hpart _ =>
    ⟨hseeks part hpart, fun _ => trivial, fun _ => trivial⟩
  have hgrows : Grows True True c (Session.final r) := step.keeps_runWhere _ hwithin c r hr
  rw [← after_ofResult c r] at hgrows
  exact {
    inOrder := hgrows.inOrder hc
    pos_le := by rw [before_ofResult]; exact hgrows.pos_le
    length_le := by rw [before_ofResult]; exact hgrows.length_le hc
    front := by rw [before_ofResult]; exact hgrows.front
    buf_eq := by
      rw [before_ofResult, after_ofResult]
      exact fun hnothing => hnothing.buf_eq hseeks hr }

/-- A script runs its first step, and then the rest from where that ended, with a value or with a fault.
-/
theorem runScript_cons {step : Step} {steps : List Step} {c : Cursor} {outcomes : List Outcome} :
    runScript c (step :: steps) = some outcomes ↔ ∃ r later, step.run c = some r ∧
      runScript (Outcome.ofResult c r).after steps = some later ∧
      outcomes = Outcome.ofResult c r :: later := by
  simp only [runScript, Option.bind_eq_bind, Option.bind_eq_some_iff, Option.pure_def, Option.some.injEq]
  constructor
  · rintro ⟨r, hr, later, hlater, rfl⟩
    exact ⟨r, later, hr, hlater, rfl⟩
  · rintro ⟨r, later, hr, hlater, rfl⟩
    exact ⟨r, hr, later, hlater, rfl⟩

/-- A step that is part of one of the steps of a script. -/
def ScriptHas (steps : List Step) (part : Step) : Prop := ∃ step ∈ steps, step.Has part

/-- A script that ends leaves a trace of sound outcomes. -/
theorem trace_of_runScript {steps : List Step} {c : Cursor} {outcomes : List Outcome} (hc : c.InOrder)
    (hseeks : ∀ part, ScriptHas steps part → part.seeks = false)
    (h : runScript c steps = some outcomes) : Trace c steps outcomes := by
  induction steps generalizing c outcomes with
  | nil =>
    cases h
    exact .nil c
  | cons step steps ih =>
    obtain ⟨r, later, hr, hlater, rfl⟩ := runScript_cons.1 h
    have hsound := sound_ofResult (fun part hpart => hseeks part ⟨step, by simp, hpart⟩) hc hr
    refine .cons (before_ofResult c r) hsound (ih hsound.inOrder ?_ hlater)
    rintro part ⟨step', hstep', hpart⟩
    exact hseeks part ⟨step', by simp [hstep'], hpart⟩

/-- A script ends if each of its steps does, wherever it starts. -/
theorem exists_runScript {steps : List Step} (h : ∀ step ∈ steps, Session.Ends step.run) (c : Cursor) :
    ∃ outcomes, runScript c steps = some outcomes := by
  induction steps generalizing c with
  | nil => exact ⟨[], rfl⟩
  | cons step steps ih =>
    obtain ⟨r, hr⟩ := h step (by simp) c
    have hrest : ∀ step' ∈ steps, Session.Ends step'.run := fun step' hstep' => h step' (by simp [hstep'])
    obtain ⟨later, hlater⟩ := ih hrest (Outcome.ofResult c r).after
    exact ⟨_, runScript_cons.2 ⟨r, later, hr, hlater, rfl⟩⟩

/-- A script without jumps, on a cursor made from bytes, keeps it in order at every step and lets it
only grow. A step ends, wherever it starts, if none of its parts reads without end and may write and finish
meanwhile, and a script of such steps ends. -/
theorem scripts_keep_order (bytes : List UInt8) (steps : List Step)
    (hseeks : ∀ part, ScriptHas steps part → part.seeks = false) :
    (∀ outcomes, runScript (ofBytes bytes) steps = some outcomes → Trace (ofBytes bytes) steps outcomes) ∧
    (∀ step ∈ steps, (∀ part, step.Has part → ¬ part.RunsOn) → Session.Ends step.run) ∧
    ((∀ part, ScriptHas steps part → ¬ part.RunsOn) →
      ∃ outcomes, runScript (ofBytes bytes) steps = some outcomes) := by
  have hends : ∀ step ∈ steps, (∀ part, step.Has part → ¬ part.RunsOn) → Session.Ends step.run := by
    intro step hstep hruns
    exact step.ends_run fun part hpart => ⟨hseeks part ⟨step, hstep, hpart⟩, hruns part hpart⟩
  refine ⟨?_, hends, ?_⟩
  · intro outcomes h
    exact trace_of_runScript (inOrder_ofBytes bytes) hseeks h
  · intro hruns
    refine exists_runScript (fun step hstep => hends step hstep ?_) (ofBytes bytes)
    exact fun part hpart => hruns part ⟨step, hstep, hpart⟩

/-! ## Tables of steps -/

/-- A list of steps comes to nothing but its own steps. -/
theorem Program.has_ofSteps {steps : List Step} {part : Step} (h : (ofSteps steps).Has part) :
    ScriptHas steps part := by
  induction steps with
  | nil => cases h
  | cons step steps ih =>
    cases h with
    | step h => exact ⟨step, by simp, h⟩
    | next r h =>
      cases r with
      | ok v =>
        obtain ⟨step', hstep', hpart⟩ := ih h
        exact ⟨step', by simp [hstep'], hpart⟩
      | error e => cases h

/-- A table comes to nothing but the steps that it lists. -/
theorem Program.has_ofTable {handlers : List (String × Step)} {tag : Nat} {entries : Value} {part : Step}
    (h : (ofTable handlers tag entries).Has part) : ScriptHas (handlers.map Prod.snd) part := by
  cases h with
  | look c h =>
    split at h
    · cases h
    · next step hstep =>
      cases h with
      | step h =>
        obtain ⟨front, rest, rfl, -⟩ := List.lookup_eq_some_iff.1 hstep
        exact ⟨step, by simp, h⟩
      | next r h => cases r <;> cases h

/-- Writes bytes that can be read as a field of tag zero, and makes them readable. -/
def refill : Step := .writeRaw (.ofSteps [.call "write_varint" [.int 0], .call "finish" []])

/-- Reads fields, and refills for each one of tag zero. -/
def refilling (stop : Value) : Step := .readFields (.ofTable [("0", refill)]) stop (.list [])

/-- All that refilling comes to: itself, what it does for a field, and two calls. -/
theorem has_refilling {stop : Value} {part : Step} (h : (refilling stop).Has part) :
    part = refilling stop ∨ part = refill ∨ ∃ name args, part = .call name args := by
  cases h with
  | refl => exact .inl rfl
  | readFields tag acc h =>
    obtain ⟨step, hstep, h⟩ := Program.has_ofTable h
    obtain rfl : step = refill := by simpa using hstep
    cases h with
    | refl => exact .inr (.inl rfl)
    | writeRaw h =>
      obtain ⟨step, hstep, h⟩ := Program.has_ofSteps h
      simp only [List.mem_cons, List.not_mem_nil, or_false] at hstep
      rcases hstep with rfl | rfl
      · cases h
        exact .inr (.inr ⟨_, _, rfl⟩)
      · cases h
        exact .inr (.inr ⟨_, _, rfl⟩)

theorem refilling_seeks {stop : Value} {part : Step} (h : (refilling stop).Has part) : part.seeks = false := by
  rcases has_refilling h with rfl | rfl | ⟨name, args, rfl⟩ <;> rfl

/-- Refills up to a position, and reads on from there. -/
def refillScript : List Step := [refilling (.int 9), .call "read_varint" []]

/-- Refilling up to a position ends, and leaves a trace of sound outcomes. -/
theorem refilling_keeps_order :
    (∀ part, ScriptHas refillScript part → part.seeks = false) ∧
    (∀ part, ScriptHas refillScript part → ¬ part.RunsOn) ∧
    (∀ c, (Step.call "read_varint" []).WritesNothing c) ∧
    ∃ outcomes, runScript (ofBytes [0, 1, 0]) refillScript = some outcomes ∧
      Trace (ofBytes [0, 1, 0]) refillScript outcomes := by
  have hparts : ∀ part, ScriptHas refillScript part →
      (refilling (.int 9)).Has part ∨ part = .call "read_varint" [] := by
    rintro part ⟨step, hstep, h⟩
    simp only [refillScript, List.mem_cons, List.not_mem_nil, or_false] at hstep
    rcases hstep with rfl | rfl
    · exact .inl h
    · cases h
      exact .inr rfl
  have hseeks : ∀ part, ScriptHas refillScript part → part.seeks = false := by
    intro part hpart
    rcases hparts part hpart with h | rfl
    · exact refilling_seeks h
    · rfl
  have hruns : ∀ part, ScriptHas refillScript part → ¬ part.RunsOn := by
    intro part hpart
    rcases hparts part hpart with h | rfl
    · rcases has_refilling h with rfl | rfl | ⟨name, args, rfl⟩
      · rintro ⟨⟨⟩, -⟩
      · exact id
      · exact id
    · exact id
  obtain ⟨htrace, -, hends⟩ := scripts_keep_order [0, 1, 0] refillScript hseeks
  obtain ⟨outcomes, houtcomes⟩ := hends hruns
  refine ⟨hseeks, hruns, fun c => ?_, outcomes, houtcomes, htrace outcomes houtcomes⟩
  have hreads : (Step.call "read_varint" []).writes = false := by decide +kernel
  refine Step.writesNothing_of_parts (fun part hpart => ?_) rfl
  cases hpart
  exact hreads

/-! ## A script that runs on -/

/-- A byte below 128 is a whole varint. -/
theorem readVarint_byte {c : Cursor} {b : UInt8} (hb : b.toNat < 128) (front tail : List UInt8)
    (hbuf : c.buf = front ++ b :: tail) (hpos : c.pos = front.length) (hlength : c.pos < c.length) :
    readVarint c = .ok b.toNat { c with pos := c.pos + 1 } := by
  have hrest : c.rest = b :: tail.take (c.length - front.length - 1) := by
    obtain ⟨k, hk⟩ : ∃ k, c.length = front.length + (k + 1) := ⟨c.length - front.length - 1, by omega⟩
    rw [rest, hbuf, hpos, hk, List.take_length_add_append, List.drop_left, List.take_succ_cons]
    congr 2
    omega
  have hscan : Wire.scan 10 c.rest = ⟨.ok b.toNat, 1⟩ := by
    rw [hrest, Wire.scan, if_pos hb]
  rw [readVarint_of_ok (congrArg Wire.Scan.value hscan), hscan, Nat.mod_eq_of_lt (by omega)]

/-- What is written for a field of tag zero. -/
theorem run_refill (c : Cursor) : refill.run c =
    some (.ok .none { c with buf := c.buf ++ [1, 0], length := c.buf.length + 1 }) := by
  have hsize : Wire.varint ((c.buf ++ [0]).length - c.buf.length : Nat) = [1] := by
    rw [List.length_append, Nat.add_sub_cancel_left]
    rfl
  -- the length is not readable yet: it is put in front only after the body has finished
  show some (EStateM.Result.ok Value.none { c with
    buf := (c.buf ++ [0]).take c.buf.length ++
      Wire.varint ((c.buf ++ [0]).length - c.buf.length : Nat) ++ (c.buf ++ [0]).drop c.buf.length
    length := (c.buf ++ [0]).length }) = _
  rw [hsize]
  simp

/-- The cursor stands at a field of tag zero, and both its key and its value are readable. -/
def Refilled (c : Cursor) : Prop :=
  ∃ front, c.buf = front ++ [0, 1, 0] ∧ c.pos = front.length ∧ front.length + 2 ≤ c.length

def refillField (tag : Nat) (entries : Value) : Session Value :=
  (Program.ofTable [("0", refill)] tag entries).runWhere fun _ => true

/-- A field that is read leaves another one to be read. -/
theorem readNext_refilled (entries : Value) (c : Cursor) (h : Refilled c) :
    ∃ entries' c', Session.readNext refillField entries c = some (.ok entries' c') ∧ Refilled c' := by
  obtain ⟨front, hbuf, hpos, hlength⟩ := h
  have hkey : readVarint c = .ok 0 { c with pos := c.pos + 1 } :=
    readVarint_byte (by decide) front [1, 0] hbuf hpos (by omega)
  -- the cursor once the handler has written; it has not moved past the value, which is then skipped
  let written : Cursor :=
    { buf := c.buf ++ [1, 0], pos := c.pos + 1, wireType := .int 0, length := c.buf.length + 1 }
  have hfield : refillField 0 entries { c with pos := c.pos + 1, wireType := .int 0 } =
      some (.ok (Program.addEntry 0 (.int 0) .none entries) written) := by
    have hzero : (toString 0 == "0") = true := by decide
    have hhandler : [("0", refill)].lookup (toString 0) = some refill := by rw [List.lookup_cons, hzero]
    simp only [refillField, Program.ofTable, hhandler]
    rw [Program.runWhere, Session.get_bind, Program.runWhere]
    exact Session.bind_of_ok (Session.attempt_of_ok (run_refill _))
  have hvalue : readVarint written = .ok 1 { written with pos := c.pos + 2 } := by
    have hone : (1 : UInt8).toNat < 128 := by decide
    refine readVarint_byte hone (front ++ [0]) [0, 1, 0] ?_ ?_ ?_
    · simp [written, hbuf]
    · simp [written, hpos]
    · simp [written, hbuf, hpos]
  have hskip : skip 0 written = .ok () { written with pos := c.pos + 2 } := by
    show (discard readVarint : Run Unit) written = _
    rw [Run.discard_eq_map, Run.map_apply, hvalue]
  refine ⟨Program.addEntry 0 (.int 0) .none entries, { written with pos := c.pos + 2 }, ?_,
    front ++ [0, 1], ?_, ?_, ?_⟩
  · have hset : Session.ofRun (setWireType (.int (0 % 8 : Nat))) { c with pos := c.pos + 1 } =
        some (.ok () { c with pos := c.pos + 1, wireType := .int 0 }) := rfl
    rw [Session.readNext, Session.bind_of_ok (congrArg some hkey), Session.readKeyed, Session.get_bind]
    refine (Session.bind_of_ok hset).trans ((Session.bind_of_ok hfield).trans ?_)
    rw [Session.get_bind, if_pos rfl]
    exact Session.bind_of_ok (congrArg some hskip)
  · simp [written, hbuf]
  · simp [hpos]
  · simp [written, hbuf]

/-- Read without end, such fields never run out. -/
theorem endless_script_runs_on :
    (∀ part, ScriptHas [refilling (.float (Binary64.infinity false))] part → part.seeks = false) ∧
    runScript (ofBytes [0, 1, 0]) [refilling (.float (Binary64.infinity false))] = none := by
  constructor
  · rintro part ⟨step, hstep, h⟩
    obtain rfl : step = refilling (.float (Binary64.infinity false)) := by simpa using hstep
    exact refilling_seeks h
  have hstart : Refilled (ofBytes [0, 1, 0]) := ⟨[], rfl, rfl, by decide⟩
  have hendless : Session.isEndless (.float (Binary64.infinity false)) = true := by decide +kernel
  have hloop := Session.readWhile_eq_none readNext_refilled (.list []) hstart
  rw [← Session.readFields_of_isEndless _ hendless] at hloop
  have hrun : (refilling (.float (Binary64.infinity false))).run (ofBytes [0, 1, 0]) = none := hloop
  rw [runScript, hrun]
  rfl

end ProtoScribe.Cursor
