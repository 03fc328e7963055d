import ProtoScribe.Proofs.Cursor.Forward

/-!
# Where a loop of readers stops

The loops over the fields of a message and over the values of a packed run read whole steps while the
position is below where they are to stop. They look at the position between steps only. So they stop
exactly there if and only if no step crosses it (`Run.Crosses`); a step that does is read to its end,
and the loop stops behind (`readFieldsUntil_frames`, `readUntil_frames`).
-/

namespace ProtoScribe

namespace Run

variable {σ : Type} {step : σ → Run σ}

inductive Steps (step : σ → Run σ) : σ → Cursor → σ → Cursor → Prop
  | refl (a : σ) (c : Cursor) : Steps step a c a c
  | head {a a₁ b : σ} {c c₁ d : Cursor} : step a c = .ok a₁ c₁ → Steps step a₁ c₁ b d →
    Steps step a c b d

/-- One of the steps from a cursor starts before a position and ends behind it. -/
def Crosses (step : σ → Run σ) (a : σ) (c : Cursor) (stop : Nat) : Prop :=
  ∃ b d b' d', Steps step a c b d ∧ d.pos < stop ∧ step b d = .ok b' d' ∧ stop < d'.pos

/-- Whole steps move the position, and never back. -/
theorem Steps.le (hstep : ∀ a c b d, step a c = .ok b d → c.pos < d.pos) {a b : σ} {c d : Cursor}
    (h : Steps step a c b d) : c.pos ≤ d.pos := by
  induction h with
  | refl => exact Nat.le_refl _
  | head h _ ih => exact Nat.le_trans (Nat.le_of_lt (hstep _ _ _ _ h)) ih

/-- A boundary that has been reached is not crossed any more. -/
theorem not_crosses_of_le (hstep : ∀ a c b d, step a c = .ok b d → c.pos < d.pos) {a : σ} {c : Cursor}
    {stop : Nat} (hle : stop ≤ c.pos) : ¬ Crosses step a c stop := by
  rintro ⟨b, d, b', d', hsteps, hlt, -, -⟩
  have hd := hsteps.le hstep
  omega

/-- The first step crosses, or one of those after it does. -/
theorem crosses_iff {a a₁ : σ} {c c₁ : Cursor} {stop : Nat} (h : step a c = .ok a₁ c₁)
    (hlt : c.pos < stop) : Crosses step a c stop ↔ stop < c₁.pos ∨ Crosses step a₁ c₁ stop := by
  constructor
  · rintro ⟨b, d, b', d', hsteps, hd, hb, hd'⟩
    cases hsteps with
    | refl =>
      rw [h] at hb
      cases hb
      exact .inl hd'
    | head h' hsteps =>
      rw [h] at h'
      cases h'
      exact .inr ⟨b, d, b', d', hsteps, hd, hb, hd'⟩
  · rintro (hcross | ⟨b, d, b', d', hsteps, hd, hb, hd'⟩)
    · exact ⟨a, c, a₁, c₁, .refl a c, hlt, h, hcross⟩
    · exact ⟨b, d, b', d', .head h hsteps, hd, hb, hd'⟩

/-- What is not below the position any more is exactly there, or has crossed before. -/
theorem frames_of_le (hstep : ∀ a c b d, step a c = .ok b d → c.pos < d.pos) {a : σ} {c : Cursor}
    {stop : Nat} (hle : stop ≤ c.pos) : c.pos = stop ↔ c.pos ≤ stop ∧ ¬ Crosses step a c stop := by
  constructor
  · exact fun heq => ⟨Nat.le_of_eq heq, not_crosses_of_le hstep hle⟩
  · exact fun hboth => Nat.le_antisymm hboth.1 hle

/-- What stopping after a first step says about stopping. -/
theorem frames_of_step {a a₁ : σ} {c c₁ c' : Cursor} {stop : Nat} (h : step a c = .ok a₁ c₁)
    (hlt : c.pos < stop) (hrest : c'.pos = stop ↔ c₁.pos ≤ stop ∧ ¬ Crosses step a₁ c₁ stop) :
    c'.pos = stop ↔ c.pos ≤ stop ∧ ¬ Crosses step a c stop := by
  rw [hrest, crosses_iff h hlt, not_or, Nat.not_lt]
  constructor
  · exact fun hboth => ⟨Nat.le_of_lt hlt, hboth⟩
  · exact fun hboth => hboth.2

end Run

namespace Cursor

open Run

variable {stop : Nat}

/-- The loop over fields stops exactly where it is to stop, unless a field crosses. -/
theorem readFieldsUntil_frames {σ : Type} {onField : Nat → σ → Run σ}
    (hfield : ∀ tag acc, Reads (fun _ => True) (onField tag acc)) (limit : Nat) {acc acc' : σ}
    {c c' : Cursor} (hlimit : stop - c.pos ≤ limit)
    (h : readFieldsUntil onField stop limit acc c = .ok acc' c') :
    stop ≤ c'.pos ∧ (c'.pos = stop ↔ c.pos ≤ stop ∧ ¬ Crosses (readNext onField) acc c stop) := by
  have hstep : ∀ a c b d, readNext onField a c = .ok b d → c.pos < d.pos :=
    fun a c b d hok => ((advances_readNext hfield a c).of_ok hok).2
  induction limit generalizing acc c with
  | zero =>
    cases h
    exact ⟨by omega, frames_of_le hstep (by omega)⟩
  | succ limit ih =>
    rw [readFieldsUntil, bind_apply, get_apply] at h
    simp only at h
    split at h
    · next hlt =>
      obtain ⟨acc₁, c₁, hnext, hrest⟩ := bind_eq_ok h
      have hpos := hstep _ _ _ _ hnext
      obtain ⟨hreached, hframes⟩ := ih (by omega) hrest
      -- the first field started before the stop, so a crossing is a crossing of it or of a later one
      exact ⟨hreached, frames_of_step hnext hlt hframes⟩
    · cases h
      exact ⟨by omega, frames_of_le hstep (by omega)⟩

/-- The loop over the values of a run stops exactly where it is to stop, unless a value crosses. -/
theorem readUntil_frames {element : Run Value} (helement : Advances (fun _ => True) element) (limit : Nat)
    {vs : List Value} {c c' : Cursor} (hlimit : stop - c.pos ≤ limit)
    (h : readUntil element stop limit c = .ok vs c') :
    stop ≤ c'.pos ∧
      (c'.pos = stop ↔ c.pos ≤ stop ∧ ¬ Crosses (fun _ : PUnit => discard element) ⟨⟩ c stop) := by
  -- crossing does not depend on the values, so the steps forget them
  have hdiscard : ∀ {c c' : Cursor} {v : Value}, element c = .ok v c' →
      discard element c = .ok ⟨⟩ c' := fun hv => by rw [discard_eq_map, map_apply, hv]
  have hstep : ∀ (a : PUnit) c (b : PUnit) d, discard element c = .ok b d → c.pos < d.pos := by
    intro a c b d hok
    rw [discard_eq_map, map_apply] at hok
    split at hok
    · next v c₁ hv =>
      cases hok
      exact ((helement c).of_ok hv).2
    · cases hok
  induction limit generalizing vs c with
  | zero =>
    cases h
    exact ⟨by omega, frames_of_le hstep (by omega)⟩
  | succ limit ih =>
    rw [readUntil, bind_apply, get_apply] at h
    simp only at h
    split at h
    · next hlt =>
      obtain ⟨v, c₁, hv, h⟩ := bind_eq_ok h
      obtain ⟨rest, c₂, hrest, h⟩ := bind_eq_ok h
      cases h
      have hpos := ((helement c).of_ok hv).2
      obtain ⟨hreached, hframes⟩ := ih (by omega) hrest
      exact ⟨hreached, frames_of_step (hdiscard hv) hlt hframes⟩
    · cases h
      exact ⟨by omega, frames_of_le hstep (by omega)⟩

/-- A packed run ends exactly at its declared end, unless a value crosses it. -/
theorem readPacked_frames {coding : Wire.Coding} {signed : Bool} {list v : Value} {c c' : Cursor}
    (htype : c.isDelimited = true) (h : readPacked coding signed list c = .ok v c') :
    ∃ size c₁, readVarint c = .ok size c₁ ∧ size + c₁.pos ≤ c'.pos ∧ (c'.pos = size + c₁.pos ↔
      ¬ Crosses (fun _ : PUnit => discard (readAs coding signed)) ⟨⟩ c₁ (size + c₁.pos)) := by
  have helement : Advances (fun _ => True) (readAs coding signed) := fun c =>
    (advances_readAs coding signed c).imp (fun _ _ hm => hm) (fun _ _ he => ⟨trivial, he.2⟩)
  unfold readPacked at h
  rw [bind_apply, get_apply] at h
  simp only [htype, Bool.not_true, Bool.false_eq_true, if_false] at h
  obtain ⟨size, c₁, hsize, h⟩ := bind_eq_ok h
  refine ⟨size, c₁, hsize, ?_⟩
  rw [bind_apply, get_apply] at h
  -- a run without content reads no value, whatever it is to extend
  have hrun : ∃ vs, readUntil (readAs coding signed) (size + c₁.pos) size c₁ = .ok vs c' := by
    simp only at h
    split at h
    · next hzero =>
      cases h
      rw [hzero]
      exact ⟨[], rfl⟩
    · cases list with
      | none =>
        obtain ⟨vs, c₂, hvs, h⟩ := bind_eq_ok h
        cases h
        exact ⟨vs, hvs⟩
      | list items =>
        obtain ⟨vs, c₂, hvs, h⟩ := bind_eq_ok h
        cases h
        exact ⟨vs, hvs⟩
      | bool _ | int _ | float _ | str _ | bytes _ | dict _ => cases h
  obtain ⟨vs, hvs⟩ := hrun
  obtain ⟨hreached, hframes⟩ := readUntil_frames helement size (by omega) hvs
  refine ⟨hreached, hframes.trans ?_⟩
  exact ⟨fun hboth => hboth.2, fun hnot => ⟨by omega, hnot⟩⟩

end Cursor

end ProtoScribe
