import ProtoScribe.Cursor.Session
import ProtoScribe.Proofs.Cursor.Forward

/-!
# Sessions that keep to a relation, and that end

`Session.Keeps R x` says that whenever `x` ends, the cursor it started from and the one it ends with are
related by `R`, also when it ends with a fault. If reading keeps to `R`, so does a loop over fields whose
handlers do (`keeps_readFields`). `Session.Ends x` says that `x` ends, wherever it starts.

The loop itself has three rules: what every round keeps to, the whole loop keeps to
(`keeps_readWhile`); it ends if every round ends and a measure goes down (`ends_readWhile`); and it does
not end if there is no stop and every round establishes anew what it needs (`readWhile_eq_none`).
-/

namespace ProtoScribe

/-- A relation between cursors that reading keeps to, and that operations in a row keep to if each of
them does. -/
structure Cursor.AllowsReading (R : Cursor → Cursor → Prop) : Prop where
  moves : ∀ {c c'}, c.Moves c' → R c c'
  trans : ∀ {c c₁ c₂}, R c c₁ → R c₁ c₂ → R c c₂

namespace Session

variable {α β σ : Type}

def final : EStateM.Result Fault Cursor α → Cursor
  | .ok _ c => c
  | .error _ c => c

/-- Whenever the operation ends, the cursors before and after are related. -/
def Keeps (R : Cursor → Cursor → Prop) (x : Session α) : Prop := ∀ c r, x c = some r → R c (final r)

/-- The operation ends, whether with a value or with a fault. -/
def Ends (x : Session α) : Prop := ∀ c, ∃ r, x c = some r

/-! ## Operations in a row -/

theorem bind_of_ok {x : Session α} {f : α → Session β} {c c' : Cursor} {a : α}
    (h : x c = some (.ok a c')) : (x >>= f) c = f a c' := by
  show (x c >>= _) = _
  rw [h]
  rfl

theorem bind_of_error {x : Session α} {f : α → Session β} {c c' : Cursor} {e : Fault}
    (h : x c = some (.error e c')) : (x >>= f) c = some (.error e c') := by
  show (x c >>= _) = _
  rw [h]
  rfl

theorem get_bind (f : Cursor → Session β) (c : Cursor) : ((get : Session Cursor) >>= f) c = f c c := rfl

/-- Inversion: two operations in a row end if the first one fails, or if both end. -/
theorem bind_eq_some {x : Session α} {f : α → Session β} {c : Cursor} {r : EStateM.Result Fault Cursor β}
    (h : (x >>= f) c = some r) : (∃ a c', x c = some (.ok a c') ∧ f a c' = some r) ∨
      ∃ e c', x c = some (.error e c') ∧ r = .error e c' := by
  obtain ⟨s, hs, h⟩ := Option.bind_eq_some_iff.1 h
  cases s with
  | ok a c' => exact .inl ⟨a, c', hs, h⟩
  | error e c' =>
    cases h
    exact .inr ⟨e, c', hs, rfl⟩

theorem attempt_of_ok {x : Session α} {c c' : Cursor} {a : α} (h : x c = some (.ok a c')) :
    x.attempt c = some (.ok (.ok a) c') := by
  rw [attempt, h]
  rfl

theorem attempt_of_error {x : Session α} {c c' : Cursor} {e : Fault} (h : x c = some (.error e c')) :
    x.attempt c = some (.ok (.error e) c') := by
  rw [attempt, h]
  rfl

section

variable {R : Cursor → Cursor → Prop} {x : Session α} {f : α → Session β}

/-- An operation that always ends keeps to a relation if both of its outcomes do. -/
theorem keeps_ofRun {x : Run α} (h : ∀ c, Run.Ends x c (fun _ c' => R c c') (fun _ c' => R c c')) :
    Keeps R (ofRun x) := by
  intro c r hr
  cases hr
  cases hx : x c with
  | ok a c' => exact (h c).of_ok hx
  | error e c' => exact (h c).of_error hx

/-- The rule for sequencing. -/
theorem Keeps.bind (hR : Cursor.AllowsReading R) (hx : Keeps R x) (hf : ∀ a, Keeps R (f a)) :
    Keeps R (x >>= f) := by
  intro c r hr
  rcases bind_eq_some hr with ⟨a, c', hok, hr⟩ | ⟨e, c', herror, rfl⟩
  · exact hR.trans (hx c _ hok) (hf a c' r hr)
  · exact hx c _ herror

/-- Reading keeps to every relation that allows reading. -/
theorem keeps_of_reads (hR : Cursor.AllowsReading R) {bad : Fault → Prop} {x : Run α}
    (h : Run.Reads bad x) : Keeps R (ofRun x) :=
  keeps_ofRun fun c => (h c).imp (fun _ _ hm => hR.moves hm) (fun _ _ he => hR.moves he.2)

theorem keeps_pure (hR : Cursor.AllowsReading R) (a : α) : Keeps R (pure a) := by
  rintro c r ⟨⟩
  exact hR.moves (.refl c)

theorem Keeps.andReturn (hR : Cursor.AllowsReading R) (hx : Keeps R x) (b : β) :
    Keeps R (x >>= fun _ => pure b) :=
  .bind hR hx fun _ => keeps_pure hR b

theorem keeps_get (hR : Cursor.AllowsReading R) : Keeps R (get : Session Cursor) := by
  rintro c r ⟨⟩
  exact hR.moves (.refl c)

/-- Catching a fault does not undo what was done before it. -/
theorem Keeps.attempt (hx : Keeps R x) : Keeps R x.attempt := by
  intro c r hr
  obtain ⟨s, hs, hr⟩ := Option.bind_eq_some_iff.1 hr
  have hkept := hx c s hs
  cases s <;> cases hr <;> exact hkept

/-- What is not allowed does not end, so only what is allowed has to keep to the relation. -/
theorem keeps_permit {allowed : Bool} (h : allowed = true → Keeps R x) : Keeps R (permit allowed x) := by
  intro c r hr
  cases allowed with
  | false => cases hr
  | true => exact h rfl c r hr

end

theorem ends_ofRun (x : Run α) : Ends (ofRun x) := fun c => ⟨x c, rfl⟩

/-- Operations in a row end if each of them does, wherever it starts. -/
theorem Ends.bind {x : Session α} {f : α → Session β} (hx : Ends x) (hf : ∀ a, Ends (f a)) :
    Ends (x >>= f) := by
  intro c
  obtain ⟨r, hr⟩ := hx c
  cases r with
  | ok a c' =>
    rw [bind_of_ok hr]
    exact hf a c'
  | error e c' => exact ⟨_, bind_of_error hr⟩

theorem Ends.andReturn {x : Session α} (hx : Ends x) (b : β) : Ends (x >>= fun _ => pure b) :=
  hx.bind fun _ => ends_ofRun (pure b)

theorem Ends.attempt {x : Session α} (hx : Ends x) : Ends x.attempt := by
  intro c
  obtain ⟨r, hr⟩ := hx c
  cases r with
  | ok a c' => exact ⟨_, attempt_of_ok hr⟩
  | error e c' => exact ⟨_, attempt_of_error hr⟩

/-! ## The loop -/

section

variable {next : σ → Session σ} {stop : Option Nat}

theorem readWhile_of_stop {acc : σ} {c : Cursor} (h : stop.all (c.pos < ·) = false) :
    Cursor.readWhile next stop acc c = some (.ok acc c) := by
  rw [Cursor.readWhile, if_neg (by simp [h])]

/-- One round of the loop. -/
theorem readWhile_of_ok {acc acc' : σ} {c c' : Cursor} (h : stop.all (c.pos < ·) = true)
    (hnext : next acc c = some (.ok acc' c')) :
    Cursor.readWhile next stop acc c = Cursor.readWhile next stop acc' c' := by
  rw [Cursor.readWhile, if_pos h, hnext]
  rfl

theorem readWhile_of_error {acc : σ} {c c' : Cursor} {e : Fault} (h : stop.all (c.pos < ·) = true)
    (hnext : next acc c = some (.error e c')) : Cursor.readWhile next stop acc c = some (.error e c') := by
  rw [Cursor.readWhile, if_pos h, hnext]
  rfl

/-- What every round keeps to, the loop keeps to. -/
theorem keeps_readWhile {R : Cursor → Cursor → Prop} (hR : Cursor.AllowsReading R)
    (h : ∀ acc, Keeps R (next acc)) (acc : σ) : Keeps R (Cursor.readWhile next stop acc) := by
  intro c r hr
  -- the loop is a limit of loops that run fewer rounds, so the rounds after the first are given
  refine Cursor.readWhile.partial_correctness next stop (fun _ c r => R c (final r)) ?_ acc c r hr
  intro later ih acc c r hr
  split at hr
  · obtain ⟨s, hs, hr⟩ := Option.bind_eq_some_iff.1 hr
    cases s with
    | ok acc' c' => exact hR.trans (h acc c _ hs) (ih acc' c' r hr)
    | error e c' =>
      cases hr
      exact h acc c _ hs
  · cases hr
    exact hR.moves (.refl c)

/-- The loop ends if every round ends and a measure goes down. -/
theorem ends_readWhile (measure : Cursor → Nat) (hends : ∀ acc, Ends (next acc))
    (hless : ∀ acc acc' c c', stop.all (c.pos < ·) = true → next acc c = some (.ok acc' c') →
      measure c' < measure c) (acc : σ) : Ends (Cursor.readWhile next stop acc) := by
  intro c
  induction hm : measure c using Nat.strongRecOn generalizing acc c with
  | _ m ih =>
    cases hstop : stop.all (c.pos < ·) with
    | false => exact ⟨_, readWhile_of_stop hstop⟩
    | true =>
      obtain ⟨r, hr⟩ := hends acc c
      cases r with
      | error e c' => exact ⟨_, readWhile_of_error hstop hr⟩
      | ok acc' c' =>
        rw [readWhile_of_ok hstop hr]
        apply ih (measure c') _ acc' c' rfl
        rw [← hm]
        exact hless acc acc' c c' hstop hr

/-- Without a stop, the loop does not end if every round succeeds and leaves what the next one needs. -/
theorem readWhile_eq_none {Inv : Cursor → Prop}
    (h : ∀ acc c, Inv c → ∃ acc' c', next acc c = some (.ok acc' c') ∧ Inv c') (acc : σ) {c : Cursor}
    (hc : Inv c) : Cursor.readWhile next none acc c = none := by
  cases hr : Cursor.readWhile next none acc c with
  | none => rfl
  | some r =>
    -- a loop that ends has a last round, which no cursor with the invariant is in
    have hlast : ¬ Inv c := by
      refine Cursor.readWhile.partial_correctness next none (fun _ c _ => ¬ Inv c) ?_ acc c r hr
      intro later ih acc c r hr hc
      obtain ⟨acc', c', hnext, hc'⟩ := h acc c hc
      split at hr
      · rw [hnext] at hr
        exact ih acc' c' r hr hc'
      · next hstop => exact hstop rfl
    exact absurd hc hlast

end

/-! ## Fields -/

section

variable {R : Cursor → Cursor → Prop} {onField : Nat → σ → Session σ}

theorem keeps_readKeyed (hR : Cursor.AllowsReading R) (h : ∀ tag acc, Keeps R (onField tag acc))
    (key : Nat) (acc : σ) : Keeps R (readKeyed onField key acc) := by
  refine .bind hR (keeps_get hR) fun c => ?_
  refine .bind hR (keeps_ofRun fun c => hR.moves (Cursor.moves_setWireType c _)) fun _ => ?_
  refine .bind hR (h _ acc) fun acc' => .bind hR (keeps_get hR) fun c' => ?_
  split
  · exact .andReturn hR (keeps_of_reads hR (Cursor.reads_skip key)) acc'
  · exact keeps_pure hR acc'

theorem keeps_readNext (hR : Cursor.AllowsReading R) (h : ∀ tag acc, Keeps R (onField tag acc))
    (acc : σ) : Keeps R (readNext onField acc) :=
  .bind hR (keeps_of_reads hR Cursor.advances_readVarint.reads) fun key => keeps_readKeyed hR h key acc

/-- Reading fields keeps to what its handlers keep to. -/
theorem keeps_readFields (hR : Cursor.AllowsReading R) (h : ∀ tag acc, Keeps R (onField tag acc))
    (stop : Value) (init : σ) : Keeps R (readFields onField stop init) := by
  refine .bind hR (keeps_get hR) fun c => ?_
  have hstop : Run.Reads (fun _ => True) (Cursor.lift (stopOf stop c)) := .lift fun _ _ => trivial
  refine .bind hR (keeps_of_reads hR hstop) fun limit => ?_
  exact keeps_readWhile hR (keeps_readNext hR h) init

theorem keeps_readMessage (hR : Cursor.AllowsReading R) (h : ∀ tag acc, Keeps R (onField tag acc))
    (init : σ) : Keeps R (readMessage onField init) := by
  refine .bind hR (keeps_of_reads hR Cursor.advances_readVarint.reads) fun size => ?_
  exact .bind hR (keeps_get hR) fun c => keeps_readFields hR h _ init

/-- A field that is read was there to be read, and is left behind, if what its handler does never moves
back. -/
theorem readNext_advances (hR : Cursor.AllowsReading R) (hpos : ∀ {c c'}, R c c' → c.pos ≤ c'.pos)
    (h : ∀ tag acc, Keeps R (onField tag acc)) {acc acc' : σ} {c c' : Cursor}
    (hnext : readNext onField acc c = some (.ok acc' c')) :
    c.pos < min c.length c.buf.length ∧ c.pos < c'.pos := by
  rcases bind_eq_some hnext with ⟨key, c₁, hkey, hfield⟩ | ⟨e, c₁, -, herror⟩
  · obtain ⟨-, -, hlt, hshort⟩ := (Cursor.readVarint_ends c).of_ok (Option.some.inj hkey)
    have hle : c₁.pos ≤ c'.pos := hpos (keeps_readKeyed hR h key acc c₁ _ hfield)
    have hleft : 0 < c.rest.length := Nat.zero_lt_of_lt hshort
    rw [Cursor.rest_length] at hleft
    omega
  · cases herror

end

/-- Up to infinity, reading fields is the loop without a stop. -/
theorem readFields_of_isEndless (onField : Nat → σ → Session σ) {stop : Value} (h : isEndless stop = true)
    (init : σ) (c : Cursor) :
    readFields onField stop init c = Cursor.readWhile (readNext onField) none init c := by
  have hstop : stopOf stop c = .ok none := if_pos h
  rw [readFields, get_bind, hstop]
  rfl

theorem ends_readNext {onField : Nat → σ → Session σ} (h : ∀ tag acc, Ends (onField tag acc)) (acc : σ) :
    Ends (readNext onField acc) := by
  refine (ends_ofRun Cursor.readVarint).bind fun key => .bind (ends_ofRun get) fun c => ?_
  refine (ends_ofRun (Cursor.setWireType _)).bind fun _ => (h _ acc).bind fun acc' => ?_
  refine .bind (ends_ofRun get) fun c' => ?_
  split
  · exact (ends_ofRun (Cursor.skip key)).andReturn acc'
  · exact ends_ofRun (pure acc')

/-! ## Sessions that end alike -/

/-- Wherever one operation ends, the other ends in the same way. -/
def EndsAs (x y : Session α) : Prop := ∀ c r, x c = some r → y c = some r

theorem EndsAs.refl (x : Session α) : EndsAs x x := fun _ _ h => h

/-- Operations that end alike one by one end alike in a row. -/
theorem EndsAs.bind {x y : Session α} {f g : α → Session β} (h : EndsAs x y) (hf : ∀ a, EndsAs (f a) (g a)) :
    EndsAs (x >>= f) (y >>= g) := by
  intro c r hr
  rcases bind_eq_some hr with ⟨a, c', hok, hr⟩ | ⟨e, c', herror, rfl⟩
  · rw [bind_of_ok (h c _ hok)]
    exact hf a c' r hr
  · exact bind_of_error (h c _ herror)

theorem EndsAs.attempt {x y : Session α} (h : EndsAs x y) : EndsAs x.attempt y.attempt := by
  intro c r hr
  obtain ⟨s, hs, hr⟩ := Option.bind_eq_some_iff.1 hr
  rw [Session.attempt, h c s hs]
  exact hr

theorem EndsAs.permit {allowed allowed' : Bool} {x y : Session α} (hallowed : allowed = true → allowed' = true)
    (h : EndsAs x y) : EndsAs (permit allowed x) (permit allowed' y) := by
  intro c r hr
  cases allowed with
  | false => cases hr
  | true =>
    rw [hallowed rfl]
    exact h c r hr

/-- Loops whose rounds end alike end alike. The induction is that of the loop that is known to end. -/
theorem endsAs_readWhile {next next' : σ → Session σ} (h : ∀ acc, EndsAs (next acc) (next' acc))
    (stop : Option Nat) (acc : σ) : EndsAs (Cursor.readWhile next stop acc) (Cursor.readWhile next' stop acc) := by
  intro c r hr
  refine Cursor.readWhile.partial_correctness next stop
    (fun acc c r => Cursor.readWhile next' stop acc c = some r) ?_ acc c r hr
  intro later ih acc c r hr
  split at hr
  · next hbelow =>
    obtain ⟨s, hs, hr⟩ := Option.bind_eq_some_iff.1 hr
    cases s with
    | ok acc' c' =>
      rw [readWhile_of_ok hbelow (h acc c _ hs)]
      exact ih acc' c' r hr
    | error e c' =>
      cases hr
      exact readWhile_of_error hbelow (h acc c _ hs)
  · next hstop =>
    cases hr
    exact readWhile_of_stop (by simpa using hstop)

section

variable {onField onField' : Nat → σ → Session σ} (h : ∀ tag acc, EndsAs (onField tag acc) (onField' tag acc))
include h

theorem endsAs_readNext (acc : σ) : EndsAs (readNext onField acc) (readNext onField' acc) := by
  refine .bind (.refl _) fun key => .bind (.refl _) fun c => .bind (.refl _) fun _ => ?_
  exact .bind (h _ acc) fun acc' => .refl _

theorem endsAs_readFields (stop : Value) (init : σ) :
    EndsAs (readFields onField stop init) (readFields onField' stop init) :=
  .bind (.refl _) fun _ => .bind (.refl _) fun limit => endsAs_readWhile (endsAs_readNext h) limit init

theorem endsAs_readMessage (init : σ) : EndsAs (readMessage onField init) (readMessage onField' init) :=
  .bind (.refl _) fun _ => .bind (.refl _) fun _ => endsAs_readFields h _ init

end

theorem endsAs_writeFramed {body body' : Session Unit} (h : EndsAs body body') :
    EndsAs (writeFramed body) (writeFramed body') :=
  .bind (.refl _) fun _ => .bind h fun _ => .refl _

theorem endsAs_writeMessage (tag : Value) {body body' : Session Unit} (h : EndsAs body body') :
    EndsAs (writeMessage tag body) (writeMessage tag body') :=
  .bind (.refl _) fun _ => endsAs_writeFramed h

end Session

end ProtoScribe
