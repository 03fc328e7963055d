import ProtoScribe.Proofs.Code.Refinement
import ProtoScribe.Proofs.Scope.Pruning

/-!
# Leaving out fields keeps a schema accepted

Whether the code of a schema can be loaded is a matter of every field, and of the names of types
(`Decl.Loads`, `readChain_loads_iff`, `writers_loads_iff`). The code of a field does not look at other
fields, so a schema that is accepted stays accepted when fields are left out (`Compiled.prune`).
-/

namespace ProtoScribe

namespace Code

/-! ## Checks -/

theorem checkStmts_iff {ss : List Stmt} : checkStmts ss = .ok () ↔ ∀ s ∈ ss, s.check = .ok () := by
  induction ss with
  | nil => simp [checkStmts]
  | cons s rest ih => rw [checkStmts, Outcome.seq_ok_iff, ih, List.forall_mem_cons]

theorem checkDecls_iff {ds : List Decl} : checkDecls ds = .ok () ↔ ∀ d ∈ ds, d.check = .ok () := by
  induction ds with
  | nil => simp [checkDecls]
  | cons d rest ih => rw [checkDecls, Outcome.seq_ok_iff, ih, List.forall_mem_cons]

theorem checkEntries_iff {entries : List (Value × Expr)} :
    checkEntries entries = .ok () ↔ ∀ entry ∈ entries, entry.2.check = .ok () := by
  induction entries with
  | nil => simp [checkEntries]
  | cons entry rest ih =>
    obtain ⟨key, e⟩ := entry
    rw [checkEntries, Outcome.seq_ok_iff, ih, List.forall_mem_cons]

theorem checkKeys_iff {entries : List (Value × Expr)} :
    (entries.forM fun (key, _) => checkConstant key) = .ok () ↔
      ∀ entry ∈ entries, checkConstant entry.1 = .ok () := by
  induction entries with
  | nil => simp [pure, Except.pure]
  | cons entry rest ih =>
    show (checkConstant entry.1 >>= fun _ => rest.forM fun (key, _) => checkConstant key) = _ ↔ _
    rw [Outcome.seq_ok_iff, ih, List.forall_mem_cons]

/-- A dictionary passes if its keys and its values do. -/
theorem check_dict_iff {entries : List (Value × Expr)} :
    (Expr.dict entries).check = .ok () ↔
      ∀ entry ∈ entries, checkConstant entry.1 = .ok () ∧ entry.2.check = .ok () := by
  rw [Expr.check, Outcome.seq_ok_iff, checkKeys_iff, checkEntries_iff]
  exact ⟨fun h entry hentry => ⟨h.1 entry hentry, h.2 entry hentry⟩,
    fun h => ⟨fun entry hentry => (h entry hentry).1, fun entry hentry => (h entry hentry).2⟩⟩

/-! ## Declarations that load -/

/-- A declaration that passes its check and can be bound. -/
def Decl.Loads (d : Decl) : Prop :=
  d.check = .ok () ∧ ∀ bindings, ∃ bindings', d.bind bindings = .ok bindings'

/-- Whether a declaration can be bound does not depend on what is bound already. -/
theorem bind_anywhere {d : Decl} {bindings bindings' : Bindings} (h : d.bind bindings = .ok bindings')
    (others : Bindings) : ∃ others', d.bind others = .ok others' := by
  cases d with
  | table name values => exact ⟨_, by rw [Decl.bind]⟩
  | method f => exact ⟨_, by rw [Decl.bind]⟩
  | publish object name => exact ⟨_, by rw [Decl.bind]⟩
  | type name members =>
    rw [Decl.bind] at h ⊢
    obtain ⟨bound, hbound, h⟩ := Outcome.bind_ok h
    split at h
    · cases h
    · next hname =>
      rw [hbound]
      exact ⟨_, if_neg hname⟩

theorem bindAll_ok {ds : List Decl} {bindings bindings' : Bindings} (h : bindAll bindings ds = .ok bindings') :
    ∀ d ∈ ds, ∀ others, ∃ others', d.bind others = .ok others' := by
  induction ds generalizing bindings with
  | nil => simp
  | cons d rest ih =>
    rw [bindAll] at h
    obtain ⟨bindings₁, hd, h⟩ := Outcome.bind_ok h
    exact List.forall_mem_cons.2 ⟨bind_anywhere hd, ih h⟩

/-- Declarations that load one by one load in a row, whatever they find there. -/
theorem exists_bindAll {ds : List Decl} (h : ∀ d ∈ ds, d.Loads) (bindings : Bindings) :
    ∃ bindings', bindAll bindings ds = .ok bindings' := by
  induction ds generalizing bindings with
  | nil => exact ⟨bindings, by rw [bindAll]⟩
  | cons d rest ih =>
    obtain ⟨bindings₁, hd⟩ := (h d (by simp)).2 bindings
    obtain ⟨bindings', hrest⟩ := ih (fun d' hd' => h d' (by simp [hd'])) bindings₁
    refine ⟨bindings', ?_⟩
    rw [bindAll, hd]
    exact hrest

theorem loads_method_iff {f : Function} : (Decl.method f).Loads ↔ checkStmts f.body = .ok () := by
  refine ⟨fun h => by simpa [Decl.check] using h.1, fun h => ⟨by rwa [Decl.check], fun bindings => ?_⟩⟩
  exact ⟨_, by rw [Decl.bind]⟩

/-- A class loads if its members do and its name has no NUL in it. -/
theorem loads_type_iff {name : String} {members : List Decl} :
    (Decl.type name members).Loads ↔ (∀ d ∈ members, d.Loads) ∧ '\x00' ∉ name.toList := by
  constructor
  · rintro ⟨hcheck, hbind⟩
    rw [Decl.check, checkDecls_iff] at hcheck
    obtain ⟨bindings', hbind⟩ := hbind []
    rw [Decl.bind] at hbind
    obtain ⟨bound, hbound, hbind⟩ := Outcome.bind_ok hbind
    refine ⟨fun d hd => ⟨hcheck d hd, bindAll_ok hbound d hd⟩, fun hnul => ?_⟩
    rw [if_pos hnul] at hbind
    cases hbind
  · rintro ⟨hmembers, hname⟩
    refine ⟨?_, fun bindings => ?_⟩
    · rw [Decl.check, checkDecls_iff]
      exact fun d hd => (hmembers d hd).1
    · obtain ⟨bound, hbound⟩ := exists_bindAll hmembers []
      rw [Decl.bind, hbound]
      exact ⟨_, if_neg hname⟩

/-- Declarations that are emitted, and all load. -/
def AllLoad (emitted : Except Fault (List Decl)) : Prop := ∃ ds, emitted = .ok ds ∧ ∀ d ∈ ds, d.Loads

/-- Two groups of declarations load if each of them does. -/
theorem allLoad_append_iff {x y : Except Fault (List Decl)} :
    AllLoad (do return (← x) ++ (← y)) ↔ AllLoad x ∧ AllLoad y := by
  constructor
  · rintro ⟨ds, h, hds⟩
    obtain ⟨xs, hxs, h⟩ := Outcome.bind_ok h
    obtain ⟨ys, hys, h⟩ := Outcome.bind_ok h
    cases h
    rw [List.forall_mem_append] at hds
    exact ⟨⟨xs, hxs, hds.1⟩, ⟨ys, hys, hds.2⟩⟩
  · rintro ⟨⟨xs, rfl, hxs⟩, ⟨ys, rfl, hys⟩⟩
    exact ⟨xs ++ ys, rfl, List.forall_mem_append.2 ⟨hxs, hys⟩⟩

/-! ## Functions that load -/

/-- A statement that is emitted and passes its check. -/
def Passes (statement : Except Fault Stmt) : Prop := ∃ s, statement = .ok s ∧ s.check = .ok ()

/-- A chain loads if the statement for each field does. -/
theorem readChain_loads_iff {p : Place} {fields : List Field} :
    (∃ chain, readChain p fields = .ok chain ∧ checkStmts chain = .ok ()) ↔
      ∀ f ∈ fields, Passes (readStatement p f) := by
  induction fields with
  | nil => simp [readChain, checkStmts]
  | cons f rest ih =>
    rw [List.forall_mem_cons, ← ih]
    have htest : (Expr.equal (.name tagName) (.const (.int f.tag))).check = .ok () := rfl
    constructor
    · rintro ⟨chain, hchain, hcheck⟩
      rw [readChain] at hchain
      obtain ⟨otherwise, hotherwise, hchain⟩ := Outcome.bind_ok hchain
      obtain ⟨body, hbody, hchain⟩ := Outcome.bind_ok hchain
      cases hchain
      -- the test is always valid, so what counts is the body and the other fields
      simp only [checkStmts, Stmt.check, Outcome.seq_ok_iff, and_true] at hcheck
      exact ⟨⟨body, hbody, hcheck.2.1⟩, otherwise, hotherwise, hcheck.2.2⟩
    · rintro ⟨⟨body, hbody, hcheck⟩, otherwise, hotherwise, hrest⟩
      refine ⟨[.branch (.equal (.name tagName) (.const (.int f.tag))) [body] otherwise], ?_, ?_⟩
      · rw [readChain, hotherwise, hbody]
        rfl
      · simp only [checkStmts, Stmt.check, Outcome.seq_ok_iff, and_true]
        exact ⟨htest, hcheck, hrest⟩

theorem writers_loads_iff {p : Place} {fields : List Field} :
    (∃ body, fields.mapM (writeStatement p) = .ok body ∧ checkStmts body = .ok ()) ↔
      ∀ f ∈ fields, Passes (writeStatement p f) := by
  simp only [checkStmts_iff]
  exact Outcome.exists_mapM_ok_iff

/-- Fewer fields have fewer defaults to write down. -/
theorem check_initial {fields fields' : List Field} (hsub : fields' ⊆ fields)
    (h : (initial fields).check = .ok ()) : (initial fields').check = .ok () := by
  rw [initial, check_dict_iff] at h ⊢
  intro entry hentry
  obtain ⟨f, hf, hentry⟩ := List.mem_filterMap.1 hentry
  exact h entry (List.mem_filterMap.2 ⟨f, hsub hf, hentry⟩)

theorem check_readFunction {name : String} {fields fields' : List Field} (hsub : fields' ⊆ fields)
    (h : checkStmts (readFunction name fields).body = .ok ()) :
    checkStmts (readFunction name fields').body = .ok () := by
  simp only [readFunction, cursorCall, checkStmts, Stmt.check, Expr.check, checkExprs,
    Outcome.seq_ok_iff] at h ⊢
  obtain ⟨⟨hcall, hpath, hinitial, hend⟩, hnil⟩ := h
  exact ⟨⟨hcall, hpath, check_initial hsub hinitial, hend⟩, hnil⟩

/-! ## Leaving out fields -/

section

variable (keep : Value → Value → Bool) {options : Options}

/-- The statement for a field does not depend on the other fields. -/
theorem readStatement_prune (p : Place) (f : Field) :
    readStatement (p.prune keep) f = readStatement p f := by
  unfold readStatement
  rw [Place.target_prune]
  cases p.target f with
  | error e => rfl
  | ok t =>
    cases t with
    | scalar t => rfl
    | enumeration q => rfl
    | message q =>
      simp only [Except.map, bind, Except.bind, Target.prune, readValue, Place.prune_name]
      rfl

theorem writeStatement_prune (p : Place) (f : Field) :
    writeStatement (p.prune keep) f = writeStatement p f := by
  unfold writeStatement
  rw [Place.target_prune]
  cases p.target f with
  | error e => rfl
  | ok t =>
    cases t with
    | scalar t => rfl
    | enumeration q => rfl
    | message q =>
      simp only [Except.map, bind, Except.bind, Target.prune, writeCall, Place.prune_name]
      rfl

theorem prune_fields_subset (p : Place) : (p.prune keep).scope.fields ⊆ p.scope.fields := by
  rw [Place.prune_fields]
  exact List.filter_subset_self _

/-- Readers still load when fields are dropped. -/
theorem readers_prune {p : Place} (h : AllLoad (readers p)) : AllLoad (readers (p.prune keep)) := by
  obtain ⟨ds, h, hds⟩ := h
  obtain ⟨name, hname, h⟩ := Outcome.bind_ok h
  obtain ⟨chain, hchain, h⟩ := Outcome.bind_ok h
  cases h
  simp only [List.forall_mem_cons, loads_method_iff] at hds
  obtain ⟨hread, hfield, -⟩ := hds
  have hsub := prune_fields_subset keep p
  have hpasses := readChain_loads_iff.1 ⟨chain, hchain, hfield⟩
  obtain ⟨chain', hchain', hfield'⟩ := readChain_loads_iff.2 fun f hf => by
    rw [readStatement_prune keep p f]
    exact hpasses f (hsub hf)
  refine ⟨[.method (readFunction name (p.prune keep).scope.fields), .method (fieldFunction chain')], ?_, ?_⟩
  · rw [readers, Place.prune_name, hname, hchain']
    rfl
  · simp only [List.forall_mem_cons, loads_method_iff]
    exact ⟨check_readFunction hsub hread, hfield', by simp⟩

theorem writers_prune {p : Place} (h : AllLoad (writers p)) : AllLoad (writers (p.prune keep)) := by
  obtain ⟨ds, h, hds⟩ := h
  obtain ⟨body, hbody, h⟩ := Outcome.bind_ok h
  cases h
  simp only [List.forall_mem_singleton, loads_method_iff] at hds
  have hpasses := writers_loads_iff.1 ⟨body, hbody, hds⟩
  obtain ⟨body', hbody', hwrite'⟩ := writers_loads_iff.2 fun f hf => by
    rw [writeStatement_prune keep p f]
    exact hpasses f (prune_fields_subset keep p hf)
  refine ⟨[.method (writeFunction body')], ?_, ?_⟩
  · rw [writers, hbody']
    rfl
  · simp only [List.forall_mem_singleton, loads_method_iff]
    exact hwrite'

/-- A message keeps functions that load. -/
theorem methods_prune {p : Place} (h : AllLoad (methods options p)) :
    AllLoad (methods options (p.prune keep)) := by
  have homit : ∀ {omitted : Bool} {x y : Except Fault (List Decl)}, (AllLoad x → AllLoad y) →
      AllLoad (omitIf omitted x) → AllLoad (omitIf omitted y) := by
    intro omitted x y hxy hx
    cases omitted with
    | true => exact hx
    | false => exact hxy hx
  obtain ⟨hread, hwrite⟩ := allLoad_append_iff.1 h
  exact allLoad_append_iff.2 ⟨homit (readers_prune keep) hread, homit (writers_prune keep) hwrite⟩

mutual

/-- A type still loads when fields are dropped. The induction follows the nesting of scopes. -/
theorem declare_prune : ∀ (s : Scope) {outer : List Scope} {d : Decl}, declare options outer s = .ok d →
    d.Loads → ∃ d', declare options (outer.map (Scope.prune keep)) (s.prune keep) = .ok d' ∧ d'.Loads
  | ⟨label, name, isTop, kind, fields, children⟩, outer, d, h, hd => by
    cases kind with
    | enumeration values =>
      -- the table of an enumeration is made of its name and symbols alone
      rw [declare] at h
      refine ⟨d, ?_, hd⟩
      rw [Scope.prune, Scope.mapFields, declare]
      exact h
    | root | message =>
      rw [declare] at h
      obtain ⟨own, hown, h⟩ := Outcome.bind_ok h
      obtain ⟨nested, hnested, h⟩ := Outcome.bind_ok h
      obtain ⟨short, hshort, h⟩ := Outcome.bind_ok h
      cases h
      rw [loads_type_iff, List.forall_mem_append] at hd
      obtain ⟨own', hown', hownLoad⟩ := methods_prune keep ⟨own, hown, hd.1.1⟩
      obtain ⟨nested', hnested', hnestedLoad⟩ := declareNested_prune children hnested hd.1.2
      refine ⟨.type short (own' ++ nested'), ?_, ?_⟩
      · simp only [Place.prune, Place.mapFields, Scope.prune, Scope.mapFields, List.map_cons,
          Scope.mapFieldsAll_eq_map] at hown' hnested' ⊢
        simp only [declare, hown', hnested']
        exact congrArg (Except.map _) hshort
      · rw [loads_type_iff, List.forall_mem_append]
        exact ⟨⟨hownLoad, hnestedLoad⟩, hd.2⟩

theorem declareNested_prune : ∀ (ss : List Scope) {outer : List Scope} {ds : List Decl},
    declareNested options outer ss = .ok ds → (∀ d ∈ ds, d.Loads) →
    AllLoad (declareNested options (outer.map (Scope.prune keep)) (ss.map (Scope.prune keep)))
  | [], outer, ds, _, _ => ⟨[], by rw [List.map_nil, declareNested], by simp⟩
  | s :: rest, outer, ds, h, hds => by
    rw [declareNested] at h
    obtain ⟨⟨⟩, hcheck, h⟩ := Outcome.bind_ok h
    obtain ⟨d, hd, h⟩ := Outcome.bind_ok h
    obtain ⟨ds, hrest, h⟩ := Outcome.bind_ok h
    cases h
    rw [List.forall_mem_cons] at hds
    obtain ⟨d', hd', hload⟩ := declare_prune s hd hds.1
    obtain ⟨ds', hds', hloads⟩ := declareNested_prune rest hrest hds.2
    have hcheck' : checkNested (s.prune keep) = .ok () := by
      rw [← hcheck, checkNested, checkNested, Scope.shortName, Scope.shortName, Scope.prune,
        Scope.mapFields_name]
    refine ⟨d' :: ds', ?_, List.forall_mem_cons.2 ⟨hload, hloads⟩⟩
    rw [List.map_cons, declareNested, hcheck', hd', hds']
    rfl

end

end

/-! ## Modules that load -/

section

variable {options : Options} {outer ss : List Scope}

/-- A type at the top that can be declared, loaded and published under its label. -/
structure TopLoads (options : Options) (outer : List Scope) (s : Scope) (label : String) : Prop where
  label_eq : s.label = .str label
  name_eq : s.name = .str label
  short : s.shortName = .ok label
  free : label ∉ reservedNames (some Module.exportsName)
  valid : checkName label = .ok ()
  loads : ∃ d, declare options outer s = .ok d ∧ d.Loads

theorem TopLoads.ne_exports {s : Scope} {label : String} (h : TopLoads options outer s label) :
    label ≠ Module.exportsName := by
  rintro rfl
  exact h.free (by decide)

/-- The types at the top of a module that was loaded. -/
theorem topLoads_of_load {ds : List Decl} {m m' : Module} (htop : ∀ s ∈ ss, IsTop s)
    (hds : declareTop options (some Module.exportsName) outer ss = .ok ds) (hcheck : checkDecls ds = .ok ())
    (hexports : m.globals.lookup Module.exportsName = some .exports)
    (h : ds.foldlM Module.declare m = .ok m') : ∀ s ∈ ss, ∃ label, TopLoads options outer s label := by
  -- the induction is on the types that are left; the module so far keeps the object that exports
  induction ss generalizing ds m with
  | nil => simp
  | cons s rest ih =>
    rw [List.forall_mem_cons] at htop ⊢
    obtain ⟨label, d, ds', hlabel, hfree, hd, hname, hds', rfl⟩ := declareTop_cons htop.1 hds
    simp only [checkDecls, Decl.check, Outcome.seq_ok_iff] at hcheck
    obtain ⟨hcheck, ⟨-, hvalid⟩, hcheck'⟩ := hcheck
    obtain ⟨bindings, hbind⟩ := exists_bind hname h
    have hfirst : TopLoads options outer s label := by
      obtain ⟨label', hlabel', hname', hshort⟩ := htop.1
      rw [hlabel] at hlabel'
      cases hlabel'
      exact ⟨hlabel, hname', hshort, hfree, hvalid, d, hd, hcheck, bind_anywhere hbind⟩
    obtain ⟨o, -, heq⟩ := declare_publish hname hfirst.ne_exports hexports hbind
    rw [heq] at h
    refine ⟨⟨label, hfirst⟩, ih htop.2 hds' hcheck' ?_ h⟩
    rw [lookup_assign_of_ne _ _ hfirst.ne_exports.symm, hexports]

theorem TopLoads.declareTop_eq {s : Scope} {rest : List Scope} {label : String} {d : Decl} {ds : List Decl}
    (h : TopLoads options outer s label) (hd : declare options outer s = .ok d)
    (hds : declareTop options (some Module.exportsName) outer rest = .ok ds) :
    declareTop options (some Module.exportsName) outer (s :: rest) =
      .ok (d :: .publish Module.exportsName label :: ds) := by
  have hfree : checkTop (some Module.exportsName) s = .ok () := by
    refine if_neg fun hany => h.free ?_
    simpa [h.name_eq] using hany
  rw [declareTop, hfree, hd, hds, h.name_eq]
  rfl

/-- Types that can be declared, loaded and published make a module. -/
theorem exists_load {m : Module} (h : ∀ s ∈ ss, ∃ label, TopLoads options outer s label)
    (hexports : m.globals.lookup Module.exportsName = some .exports) :
    ∃ ds m', declareTop options (some Module.exportsName) outer ss = .ok ds ∧ checkDecls ds = .ok () ∧
      ds.foldlM Module.declare m = .ok m' := by
  induction ss generalizing m with
  | nil => exact ⟨[], m, by rw [declareTop], by rw [checkDecls], rfl⟩
  | cons s rest ih =>
    rw [List.forall_mem_cons] at h
    obtain ⟨⟨label, hfirst⟩, hrest⟩ := h
    obtain ⟨d, hd, hcheck, hbind⟩ := hfirst.loads
    obtain ⟨bindings, hbind⟩ := hbind m.globals
    have hname : d.name? = some label := by
      obtain ⟨short, hshort, hname⟩ := declare_name hd
      rw [hfirst.short] at hshort
      cases hshort
      exact hname
    obtain ⟨o, -, heq⟩ := declare_publish hname hfirst.ne_exports hexports hbind
    have hlater : (assign m.globals label o).lookup Module.exportsName = some .exports := by
      rw [lookup_assign_of_ne _ _ hfirst.ne_exports.symm, hexports]
    obtain ⟨ds, m', hds, hchecks, hload⟩ :=
      ih (m := ⟨assign m.globals label o, assign m.exported label o⟩) hrest hlater
    refine ⟨d :: .publish Module.exportsName label :: ds, m', hfirst.declareTop_eq hd hds, ?_, ?_⟩
    · have hexported : checkName Module.exportsName = .ok () := rfl
      simp only [checkDecls, Decl.check, Outcome.seq_ok_iff]
      exact ⟨hcheck, ⟨hexported, hfirst.valid⟩, hchecks⟩
    · rw [heq, hload]

end

/-- A type at the top keeps what makes it load. -/
theorem TopLoads.prune (keep : Value → Value → Bool) {options : Options} {outer : List Scope} {s : Scope}
    {label : String} (h : TopLoads options outer s label) :
    TopLoads options (outer.map (Scope.prune keep)) (s.prune keep) label := by
  have hname : (s.prune keep).name = s.name := Scope.mapFields_name _ s
  have hlabel : (s.prune keep).label = s.label := Scope.mapFields_label _ s
  obtain ⟨d, hd, hload⟩ := h.loads
  refine ⟨hlabel.trans h.label_eq, hname.trans h.name_eq, ?_, h.free, h.valid, declare_prune keep s hd hload⟩
  rw [Scope.shortName, hname]
  exact h.short

/-- A schema that is accepted stays accepted when fields are left out. -/
theorem ofSchema_prune {s : Schema} {options : Options} {m : Module} (hs : s.wellNamed = true)
    (h : Module.ofSchema s options = .ok m) (keep : Value → Value → Bool) :
    ∃ m', Module.ofSchema (s.prune keep) options = .ok m' := by
  obtain ⟨ds, hds, h⟩ := Outcome.bind_ok h
  obtain ⟨root, hroot, hds⟩ := Outcome.bind_ok hds
  obtain ⟨⟨⟩, hcheck, h⟩ := Outcome.bind_ok h
  have htop := topLoads_of_load (fun c => isTop_of_child hroot hs) hds hcheck rfl h
  have htop' : ∀ c ∈ (root.prune keep).children, ∃ label, TopLoads options [root.prune keep] c label := by
    rw [Scope.prune, Scope.mapFields_children]
    intro c' hc'
    obtain ⟨c, hc, rfl⟩ := List.mem_map.1 hc'
    obtain ⟨label, hlabel⟩ := htop c hc
    exact ⟨label, hlabel.prune keep⟩
  obtain ⟨ds', m', hds', hcheck', hload'⟩ :=
    exists_load (m := ⟨[(Module.exportsName, .exports)], []⟩) htop' rfl
  refine ⟨m', ?_⟩
  have hcode : (s.prune keep).code options (some Module.exportsName) = .ok ds' := by
    rw [Schema.code, Schema.context_prune keep hroot]
    exact hds'
  rw [Module.ofSchema, hcode]
  show (checkDecls ds' >>= fun _ => ds'.foldlM Module.declare _) = _
  rw [hcheck']
  exact hload'

/-- What remains of a module after fields were dropped compiles under the same names. -/
theorem Compiled.prune {s : Schema} {options : Options} {m : Module} {p : Place} {path : String}
    (h : Compiled s options m p path) (keep : Value → Value → Bool) :
    ∃ m', Compiled (s.prune keep) options m' (p.prune keep) path := by
  obtain ⟨m', hm'⟩ := ofSchema_prune h.named h.loaded keep
  obtain ⟨root, hroot, hp⟩ := h.within
  refine ⟨m', Schema.wellNamed_prune keep h.named, hm', ⟨_, Schema.context_prune keep hroot, ?_⟩, ?_, ?_⟩
  · exact Scope.mem_walk_iff.2 ((Scope.mem_walk_iff.1 hp).mapFields _)
  · exact (Place.mapFields_kind _ p).trans h.isMessage
  · exact (Place.prune_name keep p).trans h.path_eq

end Code

end ProtoScribe
