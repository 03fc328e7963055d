import ProtoScribe.Cursor.Basic

/-!
# Reasoning about runs

Two ways to speak about an operation on a cursor, both closed under sequencing.

* `Run.Ends x c ok bad` is about one run: started at `c` it ends with a value of which `ok` holds, or
  with a fault of which `bad` holds. Both may speak of the cursor that is left behind.
* `Run.Matches R x y` is about two: from every cursor they leave the same cursor behind, and either
  fail with the same fault or end with values that `R` relates.

`Run.Fails bad x` forgets all of the first but the fault.
-/

namespace ProtoScribe.Run

variable {α β γ δ : Type}

/-! ## What the building blocks do -/

@[simp]
theorem pure_apply (a : α) (c : Cursor) : (pure a : Run α) c = .ok a c := rfl

@[simp]
theorem throw_apply (e : Fault) (c : Cursor) : (throw e : Run α) c = .error e c := rfl

@[simp]
theorem get_apply (c : Cursor) : (get : Run Cursor) c = .ok c c := rfl

@[simp]
theorem lift_ok_apply (a : α) (c : Cursor) : Cursor.lift (.ok a) c = .ok a c := rfl

@[simp]
theorem lift_error_apply (e : Fault) (c : Cursor) :
    (Cursor.lift (.error e) : Run α) c = .error e c := rfl

@[simp]
theorem lift_ok_bind (a : α) (f : α → Run β) : (Cursor.lift (.ok a) >>= f) = f a := rfl

@[simp]
theorem lift_error_bind (e : Fault) (f : α → Run β) : (Cursor.lift (.error e) >>= f) = throw e := rfl

theorem discard_eq_map (x : Run α) : discard x = (fun _ => PUnit.unit) <$> x := rfl

theorem bind_apply (x : Run α) (f : α → Run β) (c : Cursor) :
    (x >>= f) c = match x c with
      | .ok a c' => f a c'
      | .error e c' => .error e c' := by
  simp only [bind, EStateM.bind]
  cases x c <;> rfl

theorem map_apply (f : α → β) (x : Run α) (c : Cursor) :
    (f <$> x) c = match x c with
      | .ok a c' => .ok (f a) c'
      | .error e c' => .error e c' := by
  simp only [Functor.map, EStateM.map]
  cases x c <;> rfl

/-- A run that starts with a successful one goes on from where that one ended. -/
theorem bind_of_ok {x : Run α} {f : α → Run β} {c c' : Cursor} {a : α} (h : x c = .ok a c') :
    (x >>= f) c = f a c' := by
  rw [bind_apply, h]

/-- A run that starts with a failing one fails with it. -/
theorem bind_of_error {x : Run α} {f : α → Run β} {c c' : Cursor} {e : Fault}
    (h : x c = .error e c') : (x >>= f) c = .error e c' := by
  rw [bind_apply, h]

/-- A result that is followed by more can only come from a result. -/
theorem bind_eq_ok {x : Run α} {f : α → Run β} {c c' : Cursor} {b : β} (h : (x >>= f) c = .ok b c') :
    ∃ a c₁, x c = .ok a c₁ ∧ f a c₁ = .ok b c' := by
  rw [bind_apply] at h
  split at h
  · next a c₁ hx => exact ⟨a, c₁, hx, h⟩
  · cases h

/-! ## One run -/

/-- A run from `c` ends with a value and a cursor as `ok` says, or fails with a fault and a cursor as
`bad` says. -/
def Ends (x : Run α) (c : Cursor) (ok : α → Cursor → Prop) (bad : Fault → Cursor → Prop) : Prop :=
  match x c with
  | .ok a c' => ok a c'
  | .error e c' => bad e c'

section Ends

variable {x : Run α} {c : Cursor} {ok ok' : α → Cursor → Prop} {bad bad' : Fault → Cursor → Prop}

theorem Ends.of_ok {a : α} {c' : Cursor} (h : Ends x c ok bad) (hx : x c = .ok a c') : ok a c' := by
  unfold Ends at h
  rwa [hx] at h

theorem Ends.of_error {e : Fault} {c' : Cursor} (h : Ends x c ok bad) (hx : x c = .error e c') :
    bad e c' := by
  unfold Ends at h
  rwa [hx] at h

theorem ends_of_ok {a : α} {c' : Cursor} (hx : x c = .ok a c') (h : ok a c') : Ends x c ok bad := by
  unfold Ends
  rwa [hx]

theorem ends_of_error {e : Fault} {c' : Cursor} (hx : x c = .error e c') (h : bad e c') :
    Ends x c ok bad := by
  unfold Ends
  rwa [hx]

theorem Ends.intro (hok : ∀ a c', x c = .ok a c' → ok a c')
    (hbad : ∀ e c', x c = .error e c' → bad e c') : Ends x c ok bad := by
  unfold Ends
  split
  · next a c' hx => exact hok a c' hx
  · next e c' hx => exact hbad e c' hx

theorem Ends.imp (h : Ends x c ok bad) (hok : ∀ a c', ok a c' → ok' a c')
    (hbad : ∀ e c', bad e c' → bad' e c') : Ends x c ok' bad' :=
  .intro (fun a c' hx => hok a c' (h.of_ok hx)) (fun e c' hx => hbad e c' (h.of_error hx))

theorem Ends.congr {y : Run α} (h : Ends y c ok bad) (hxy : x c = y c) : Ends x c ok bad := by
  unfold Ends at h ⊢
  rwa [hxy]

theorem ends_pure {a : α} (h : ok a c) : Ends (pure a) c ok bad := h

theorem ends_throw {e : Fault} (h : bad e c) : Ends (throw e : Run α) c ok bad := h

theorem ends_lift {r : Except Fault α} (hok : ∀ a, r = .ok a → ok a c)
    (hbad : ∀ e, r = .error e → bad e c) : Ends (Cursor.lift r) c ok bad := by
  cases r with
  | ok a => exact hok a rfl
  | error e => exact hbad e rfl

/-- Sequencing: what the second run ends with is asked of wherever the first one got to. -/
theorem Ends.bind {f : α → Run β} {okβ : β → Cursor → Prop}
    (h : Ends x c (fun a c' => Ends (f a) c' okβ bad) bad) : Ends (x >>= f) c okβ bad := by
  refine .intro (fun b c' hb => ?_) (fun e c' hb => ?_)
  · obtain ⟨a, c₁, hx, hf⟩ := bind_eq_ok hb
    exact (h.of_ok hx).of_ok hf
  · rw [bind_apply] at hb
    split at hb
    · next a c₁ hx => exact (h.of_ok hx).of_error hb
    · next e₁ c₁ hx =>
      cases hb
      exact h.of_error hx

theorem Ends.map {f : α → β} {okβ : β → Cursor → Prop} (h : Ends x c (fun a c' => okβ (f a) c') bad) :
    Ends (f <$> x) c okβ bad := by
  have hmap : f <$> x = x >>= fun a => pure (f a) := rfl
  rw [hmap]
  exact .bind (h.imp (fun _ _ ha => ends_pure ha) (fun _ _ he => he))

end Ends

/-! ## Faults -/

/-- An operation that can only fail as `bad` says. -/
def Fails (bad : Fault → Prop) (x : Run α) : Prop :=
  ∀ c, Ends x c (fun _ _ => True) (fun e _ => bad e)

section Fails

variable {bad : Fault → Prop} {x : Run α}

theorem Fails.pure (a : α) : Fails bad (Pure.pure a) := fun _ => ends_pure trivial

theorem Fails.throw {e : Fault} (h : bad e) : Fails bad (MonadExcept.throw e : Run α) :=
  fun _ => ends_throw h

theorem Fails.get : Fails bad (MonadState.get : Run Cursor) := fun _ => trivial

theorem Fails.lift {r : Except Fault α} (h : ∀ e, r = .error e → bad e) : Fails bad (Cursor.lift r) :=
  fun _ => ends_lift (fun _ _ => trivial) h

theorem Fails.bind {f : α → Run β} (h : Fails bad x) (hf : ∀ a, Fails bad (f a)) :
    Fails bad (x >>= f) :=
  fun c => .bind ((h c).imp (fun a c₁ _ => hf a c₁) (fun _ _ he => he))

theorem Fails.forM {as : List α} {f : α → Run PUnit} (h : ∀ a ∈ as, Fails bad (f a)) :
    Fails bad (as.forM f) := by
  induction as with
  | nil => exact .pure _
  | cons a as ih => exact (h a (by simp)).bind fun _ => ih fun b hb => h b (by simp [hb])

end Fails

/-! ## Two runs -/

/-- Two runs that leave the same cursor behind, and fail alike or end with related values. -/
def Matches (R : α → β → Prop) (x : Run α) (y : Run β) : Prop :=
  ∀ c, (∃ a b c', x c = .ok a c' ∧ y c = .ok b c' ∧ R a b) ∨
    (∃ e c', x c = .error e c' ∧ y c = .error e c')

section Matches

variable {R : α → β → Prop} {S : γ → δ → Prop} {x : Run α} {y : Run β}

theorem Matches.pure {a : α} {b : β} (h : R a b) : Matches R (Pure.pure a) (Pure.pure b) :=
  fun c => .inl ⟨a, b, c, rfl, rfl, h⟩

theorem Matches.throw (e : Fault) :
    Matches R (MonadExcept.throw e : Run α) (MonadExcept.throw e : Run β) :=
  fun c => .inr ⟨e, c, rfl, rfl⟩

/-- Sequencing: matching runs go on to matching runs from every pair of related values. -/
theorem Matches.bind {f : α → Run γ} {g : β → Run δ} (h : Matches R x y)
    (hfg : ∀ a b, R a b → Matches S (f a) (g b)) : Matches S (x >>= f) (y >>= g) := by
  intro c
  obtain ⟨a, b, c', hx, hy, hab⟩ | ⟨e, c', hx, hy⟩ := h c
  · rw [bind_of_ok hx, bind_of_ok hy]
    exact hfg a b hab c'
  · rw [bind_of_error hx, bind_of_error hy]
    exact .inr ⟨e, c', rfl, rfl⟩

/-- What matches a run without a result is that run, once its own result is discarded. -/
theorem Matches.discard_eq {R : α → Unit → Prop} {y : Run Unit} (h : Matches R x y) (f : α → β) :
    discard (x >>= fun a => Pure.pure (f a)) = y := by
  funext c
  rw [discard_eq_map, map_apply, bind_apply]
  obtain ⟨a, b, c', hx, hy, -⟩ | ⟨e, c', hx, hy⟩ := h c
  · rw [hx, hy]
    rfl
  · rw [hx, hy]

end Matches

end ProtoScribe.Run
