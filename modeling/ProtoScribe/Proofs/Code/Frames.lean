import ProtoScribe.Proofs.Code.Evaluation

/-!
# Names that a running function binds

A function binds its parameters, and what its statements bind: the objects that they update and the
variables of their loops (`Function.locals`). `Arises` says which bindings there are while a function runs,
and no other names are among them (`Arises.bindsOnly`). So every other name means what the module binds it
to, at any point of the function.
-/

namespace ProtoScribe.Code

open Run

/-! ## Statements -/

mutual

@[simp]
def Stmt.binds : Stmt → List String
  | .eval _ | .give _ => []
  | .store object _ _ | .append object _ _ | .extend _ _ object _ _ => [object]
  | .branch _ body otherwise => Stmt.bindsAll body ++ Stmt.bindsAll otherwise
  | .each binder _ body => binder :: Stmt.bindsAll body

@[simp]
def Stmt.bindsAll : List Stmt → List String
  | [] => []
  | s :: rest => s.binds ++ Stmt.bindsAll rest

end

mutual

@[simp]
def Stmt.all : Stmt → List Stmt
  | .branch test body otherwise =>
    .branch test body otherwise :: (Stmt.allOf body ++ Stmt.allOf otherwise)
  | .each binder source body => .each binder source body :: Stmt.allOf body
  | s => [s]

@[simp]
def Stmt.allOf : List Stmt → List Stmt
  | [] => []
  | s :: rest => s.all ++ Stmt.allOf rest

end

theorem Stmt.mem_all_self (s : Stmt) : s ∈ s.all := by
  cases s <;> simp

theorem Stmt.mem_allOf {s t : Stmt} {ss : List Stmt} (hs : s ∈ ss) (ht : t ∈ s.all) : t ∈ Stmt.allOf ss := by
  induction ss with
  | nil => cases hs
  | cons first rest ih =>
    rw [Stmt.allOf]
    rcases List.mem_cons.1 hs with rfl | hs
    · exact List.mem_append_left _ ht
    · exact List.mem_append_right _ (ih hs)

mutual

/-- A statement inside another one binds no more than that. -/
theorem Stmt.binds_subset_of_mem : ∀ (s : Stmt) {t : Stmt}, t ∈ s.all → t.binds ⊆ s.binds
  | .branch test body otherwise, t, ht => by
    rw [Stmt.all] at ht
    rcases List.mem_cons.1 ht with rfl | ht
    · exact fun _ h => h
    · rw [Stmt.binds]
      rcases List.mem_append.1 ht with ht | ht
      · exact List.Subset.trans (Stmt.binds_subset_of_mem_allOf body ht) (List.subset_append_left _ _)
      · exact List.Subset.trans (Stmt.binds_subset_of_mem_allOf otherwise ht) (List.subset_append_right _ _)
  | .each binder source body, t, ht => by
    rw [Stmt.all] at ht
    rcases List.mem_cons.1 ht with rfl | ht
    · exact fun _ h => h
    · rw [Stmt.binds]
      exact List.Subset.trans (Stmt.binds_subset_of_mem_allOf body ht) (List.subset_cons_self _ _)
  | .eval e, t, ht | .give e, t, ht | .store object key value, t, ht | .append object key value, t, ht
  | .extend cursor method object key args, t, ht => by
    rw [Stmt.all, List.mem_singleton] at ht
    · rw [ht]
      exact fun _ h => h
    all_goals simp

theorem Stmt.binds_subset_of_mem_allOf : ∀ (ss : List Stmt) {t : Stmt}, t ∈ Stmt.allOf ss →
    t.binds ⊆ Stmt.bindsAll ss
  | [], t, ht => by
    rw [Stmt.allOf] at ht
    cases ht
  | s :: rest, t, ht => by
    rw [Stmt.allOf] at ht
    rw [Stmt.bindsAll]
    rcases List.mem_append.1 ht with ht | ht
    · exact List.Subset.trans (Stmt.binds_subset_of_mem s ht) (List.subset_append_left _ _)
    · exact List.Subset.trans (Stmt.binds_subset_of_mem_allOf rest ht) (List.subset_append_right _ _)

end

/-! ## Runs -/

/-- A run that ends with bindings of no other names than some, if it ends without a fault. -/
def Leaves (names : List String) (x : Run (Bindings × Option Object)) : Prop :=
  ∀ c ended c', x c = .ok ended c' → BindsOnly names ended.1

section

variable {α : Type} {names : List String} {frame : Bindings}

theorem leaves_pure {result : Option Object} (h : BindsOnly names frame) :
    Leaves names (pure (frame, result)) := by
  intro c ended c' hrun
  cases hrun
  exact h

theorem leaves_throw (e : Fault) : Leaves names (throw e) := by
  intro c ended c' hrun
  cases hrun

theorem leaves_bind {x : Run α} {f : α → Run (Bindings × Option Object)} (h : ∀ a, Leaves names (f a)) :
    Leaves names (x >>= f) := by
  intro c ended c' hrun
  obtain ⟨a, c₁, -, hrun⟩ := bind_eq_ok hrun
  exact h a c₁ ended c' hrun

/-- What the first statement leaves bound, the second one starts from. -/
theorem Leaves.bind {x : Run (Bindings × Option Object)}
    {f : Bindings × Option Object → Run (Bindings × Option Object)} (hx : Leaves names x)
    (hf : ∀ frame result, BindsOnly names frame → Leaves names (f (frame, result))) :
    Leaves names (x >>= f) := by
  intro c ended c' hrun
  obtain ⟨⟨frame, result⟩, c₁, hfirst, hrun⟩ := bind_eq_ok hrun
  exact hf frame result (hx c _ c₁ hfirst) c₁ ended c' hrun

/-- The rounds of a loop, one after the other, each from the frame that the last one has left. -/
theorem leaves_forEach {body : Value → Bindings → Run (Bindings × Option Object)}
    (hbody : ∀ v frame, BindsOnly names frame → Leaves names (body v frame)) (items : List Value)
    (h : BindsOnly names frame) : Leaves names (forEach body frame items) := by
  induction items generalizing frame with
  | nil => exact leaves_pure h
  | cons v rest ih =>
    apply (hbody v frame h).bind
    intro frame' result h'
    cases result with
    | none => exact ih h'
    | some o => exact leaves_pure h'

mutual

/-- A statement binds what it says, and nothing else. The induction is on the statement. -/
theorem leaves_exec (globals : Bindings) (call : Caller) : ∀ (s : Stmt) {frame : Bindings},
    s.binds ⊆ names → BindsOnly names frame → Leaves names (exec globals call frame s)
  | .eval e, frame, _, h => by
    rw [exec]
    apply leaves_bind
    intro _
    exact leaves_pure h
  | .give e, frame, _, h => by
    rw [exec]
    apply leaves_bind
    intro _
    exact leaves_pure h
  | .store object key value, frame, hbinds, h => by
    rw [exec]
    apply leaves_bind; intro _
    apply leaves_bind; intro _
    apply leaves_bind; intro _
    apply leaves_bind; intro o
    exact leaves_pure (h.assign (hbinds (by simp)) o)
  | .append object key value, frame, hbinds, h => by
    rw [exec]
    apply leaves_bind; intro o
    apply leaves_bind; intro old
    split
    · apply leaves_bind; intro _
      apply leaves_bind; intro _
      apply leaves_bind; intro o
      exact leaves_pure (h.assign (hbinds (by simp)) o)
    · exact leaves_throw _
  | .extend cursor method object key args, frame, hbinds, h => by
    rw [exec]
    apply leaves_bind; intro _
    apply leaves_bind; intro _
    apply leaves_bind; intro _
    apply leaves_bind; intro old
    apply leaves_bind; intro _
    apply leaves_bind; intro _
    apply leaves_bind; intro _
    split
    · apply leaves_bind; intro o
      exact leaves_pure (h.assign (hbinds (by simp)) o)
    · exact leaves_pure h
  | .branch test body otherwise, frame, hbinds, h => by
    rw [Stmt.binds] at hbinds
    rw [exec]
    apply leaves_bind; intro _
    split
    · exact leaves_execAll globals call body (fun _ hid => hbinds (List.mem_append_left _ hid)) h
    · exact leaves_execAll globals call otherwise (fun _ hid => hbinds (List.mem_append_right _ hid)) h
  | .each binder source body, frame, hbinds, h => by
    rw [Stmt.binds] at hbinds
    rw [exec]
    apply leaves_bind; intro _
    apply leaves_bind; intro _
    split
    · apply leaves_forEach ?_ _ h
      intro v frame h
      apply leaves_execAll globals call body (fun _ hid => hbinds (List.mem_cons_of_mem _ hid))
      exact h.assign (hbinds List.mem_cons_self) _
    · exact leaves_throw _

/-- Statements bind what they say and nothing else. The induction follows the nesting of statements. -/
theorem leaves_execAll (globals : Bindings) (call : Caller) : ∀ (ss : List Stmt) {frame : Bindings},
    Stmt.bindsAll ss ⊆ names → BindsOnly names frame → Leaves names (execAll globals call frame ss)
  | [], frame, _, h => by
    rw [execAll]
    exact leaves_pure h
  | s :: rest, frame, hbinds, h => by
    rw [Stmt.bindsAll] at hbinds
    rw [execAll]
    apply (leaves_exec globals call s (fun _ hid => hbinds (List.mem_append_left _ hid)) h).bind
    intro frame' result h'
    cases result with
    | none => exact leaves_execAll globals call rest (fun _ hid => hbinds (List.mem_append_right _ hid)) h'
    | some o => exact leaves_pure h'

end

end

/-! ## Functions -/

/-- The names of the parameters of a function and of what its statements bind. -/
def Function.locals (f : Function) : List String := f.params.map Prod.fst ++ Stmt.bindsAll f.body

/-- The bindings that there are while a function runs: those it is entered with, those that a statement of
it leaves behind, and those that the body of a loop starts with. -/
inductive Arises (globals : Bindings) (f : Function) : Bindings → Prop
  | enter {args : List Object} {frame : Bindings} : bindParams f.params args = .ok frame →
    Arises globals f frame
  | step {frame : Bindings} {call : Caller} {s : Stmt} {c c' : Cursor} {ended : Bindings × Option Object} :
    Arises globals f frame → s ∈ Stmt.allOf f.body → exec globals call frame s c = .ok ended c' →
    Arises globals f ended.1
  | item {frame : Bindings} {binder : String} {source : Expr} {body : List Stmt} (v : Value) :
    Arises globals f frame → .each binder source body ∈ Stmt.allOf f.body →
    Arises globals f (assign frame binder (.value v))

/-- A call starts from a frame with its parameters only. -/
theorem bindsOnly_bindParams {params : List (String × Option Value)} {args : List Object}
    {frame : Bindings} (h : bindParams params args = .ok frame) :
    BindsOnly (params.map Prod.fst) frame := by
  -- a parameter is bound to an argument, or to its own value where the arguments have run out
  fun_induction bindParams params args generalizing frame with
  | case1 =>
    cases h
    exact fun _ _ => rfl
  | case2 name _ params o args ih | case3 name v params ih =>
    obtain ⟨rest, hrest, h⟩ := Outcome.bind_ok h
    cases h
    exact ((ih hrest).mono (List.subset_cons_self _ _)).cons List.mem_cons_self _
  | case4 | case5 => cases h

/-- A running function binds nothing but its parameters and what its statements bind. -/
theorem Arises.bindsOnly {globals frame : Bindings} {f : Function} (h : Arises globals f frame) :
    BindsOnly f.locals frame := by
  induction h with
  | enter hparams =>
    exact (bindsOnly_bindParams hparams).mono (List.subset_append_left _ _)
  | @step frame call s c c' ended _ hs hexec ih =>
    apply leaves_exec globals call s _ ih c ended c' hexec
    exact List.Subset.trans (Stmt.binds_subset_of_mem_allOf f.body hs) (List.subset_append_right _ _)
  | @item frame binder source body v _ hs ih =>
    apply ih.assign
    apply List.mem_append_right
    apply Stmt.binds_subset_of_mem_allOf f.body hs
    simp

end ProtoScribe.Code
