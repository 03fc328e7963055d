import ProtoScribe.Proofs.Code.Frames

/-!
# What emitted functions refer to

The references of a piece of code are the dotted names in it whose first name it does not bind itself
(`Expr.references`, `Stmt.references`). An emitted function refers to functions of messages and to nothing
else: a reader to the function for a field of its own message, the function for a field to the reader of
every message that a field embeds, and a writer to the writers of these (`Place.callees`,
`Generated.references_eq`).
-/

namespace ProtoScribe

/-! ## Messages that functions call -/

def Target.message? : Target → Option Place
  | .message q => some q
  | .scalar _ | .enumeration _ => none

namespace Place

/-- The messages that fields embed, in the order of the fields. -/
def embedded (p : Place) (fields : List Field) : List Place :=
  fields.filterMap fun f => (p.target f).toOption.bind Target.message?

/-- The functions that a function of a message refers to: of which message, and by which name. -/
def callees (p : Place) : String → List (Place × String)
  | "read" => [(p, "_read_field")]
  | "_read_field" => (p.embedded p.scope.fields).map (·, "read")
  | "write" => (p.embedded p.scope.fields).map (·, "write")
  | _ => []

theorem embedded_cons {p : Place} {f : Field} {t : Target} (h : p.target f = .ok t) (fields : List Field) :
    p.embedded (f :: fields) = t.message?.toList ++ p.embedded fields := by
  rw [embedded, List.filterMap_cons, h]
  cases t <;> rfl

theorem mem_embedded {p q : Place} {fields : List Field} (h : q ∈ p.embedded fields) :
    ∃ f ∈ fields, p.target f = .ok (.message q) := by
  obtain ⟨f, hf, h⟩ := List.mem_filterMap.1 h
  refine ⟨f, hf, ?_⟩
  cases htarget : p.target f with
  | error e =>
    rw [htarget] at h
    cases h
  | ok t =>
    rw [htarget] at h
    cases t with
    | message r =>
      cases h
      rfl
    | scalar t | enumeration r => cases h

end Place

end ProtoScribe

namespace ProtoScribe.Code

/-! ## References -/

def Expr.head? : Expr → Option String
  | .name id => some id
  | .attr object _ => object.head?
  | _ => none

/-- Whether an expression is a dotted name that starts outside of the names bound around it. -/
def Expr.isFree (bound : List String) (e : Expr) : Bool := e.head?.any (· ∉ bound)

mutual

/-- The dotted names in an expression that start outside of the names bound around it, each in full. -/
@[simp]
def Expr.references (bound : List String) : Expr → List Expr
  | .name id => if id ∈ bound then [] else [.name id]
  | .attr object id => if object.isFree bound then [.attr object id] else object.references bound
  | .item object _ => object.references bound
  | .call function args => function.references bound ++ referencesOf bound args
  | .sum left right | .equal left right | .differ left right | .both left right =>
    left.references bound ++ right.references bound
  | .isSet e => e.references bound
  | .dict entries => referencesOfEntries bound entries
  | .const _ | .emptyList => []

@[simp]
def referencesOf (bound : List String) : List Expr → List Expr
  | [] => []
  | e :: rest => e.references bound ++ referencesOf bound rest

@[simp]
def referencesOfEntries (bound : List String) : List (Value × Expr) → List Expr
  | [] => []
  | (_, e) :: rest => e.references bound ++ referencesOfEntries bound rest

end

mutual

@[simp]
def Stmt.references (bound : List String) : Stmt → List Expr
  | .eval e | .give e => e.references bound
  | .store object _ value | .append object _ value =>
    (Expr.name object).references bound ++ value.references bound
  | .extend cursor _ object _ args =>
    (Expr.name cursor).references bound ++ (Expr.name object).references bound ++ referencesOf bound args
  | .branch test body otherwise =>
    test.references bound ++ (Stmt.referencesAll bound body ++ Stmt.referencesAll bound otherwise)
  | .each _ source body => source.references bound ++ Stmt.referencesAll bound body

@[simp]
def Stmt.referencesAll (bound : List String) : List Stmt → List Expr
  | [] => []
  | s :: rest => s.references bound ++ Stmt.referencesAll bound rest

end

/-- The dotted names in a function that start with a name that it does not bind. -/
def Function.references (f : Function) : List Expr := Stmt.referencesAll f.locals f.body

/-- How emitted code refers to a function of a message. -/
def reference (callee : Place × String) : Expr := .attr (path callee.1.scope.name.plain) callee.2

/-- A message whose qualified name starts outside of some names. -/
def StartsOutside (bound : List String) (q : Place) : Prop :=
  ∀ id, (Text.components q.scope.name.plain).head? = some id → id ∉ bound

/-! ## Expressions -/

section

variable {bound : List String}

theorem references_name {id : String} (h : id ∈ bound) : (Expr.name id).references bound = [] := by
  rw [Expr.references, if_pos h]

theorem references_member {id : String} (h : id ∈ bound) (member : String) :
    (Expr.attr (.name id) member).references bound = [] := by
  have hbound : (Expr.name id).isFree bound = false := by simpa [Expr.isFree, Expr.head?] using h
  rw [Expr.references, hbound, references_name h]
  rfl

theorem head?_attrs (e : Expr) (ids : List String) : (ids.foldl .attr e).head? = e.head? := by
  induction ids generalizing e with
  | nil => rfl
  | cons id rest ih =>
    rw [List.foldl_cons, ih]
    rfl

/-- A path starts with the first component of its name. -/
theorem head?_path (name : String) : (path name).head? = (Text.components name).head? := by
  unfold path
  split
  · next head rest hname =>
    rw [head?_attrs, hname]
    rfl
  · next hname => exact absurd hname (Text.components_ne_nil name)

/-- A path to a type is free if it does not start with a name that is bound. -/
theorem references_reference {q : Place} (h : StartsOutside bound q) (id : String) :
    (reference (q, id)).references bound = [reference (q, id)] := by
  have hfree : (path q.scope.name.plain).isFree bound = true := by
    rw [Expr.isFree, head?_path]
    cases hhead : (Text.components q.scope.name.plain).head? with
    | none => exact absurd (List.head?_eq_none_iff.1 hhead) (Text.components_ne_nil _)
    | some id => simpa using h id hhead
  rw [reference, Expr.references, hfree, if_pos rfl]

/-- A call of an operation refers to nothing but what its arguments refer to. -/
theorem references_cursorCall (h : cursorName ∈ bound) (method : String) (args : List Expr) :
    (cursorCall method args).references bound = referencesOf bound args := by
  rw [cursorCall, Expr.references, references_member h, List.nil_append]

theorem references_entry (h : objName ∈ bound) (f : Field) : (entry f).references bound = [] := by
  rw [entry, Expr.references, references_name h]

theorem references_entryOrNone (h : objName ∈ bound) (f : Field) :
    (entryOrNone f).references bound = [] := by
  rw [entryOrNone, Expr.references, references_member h]
  rfl

theorem references_presence (h : objName ∈ bound) (f : Field) (t : Target) :
    (presence f t).references bound = [] := by
  unfold presence
  simp only
  split
  · rw [Expr.references, references_entryOrNone h]
  · split
    · exact references_entryOrNone h f
    · simp only [Expr.references, references_entryOrNone h, references_entry h, List.append_nil]

theorem references_signedArgs (t : Scalar) : referencesOf bound (signedArgs t) = [] := by
  unfold signedArgs
  split <;> rfl

theorem references_initial (fields : List Field) : (initial fields).references bound = [] := by
  rw [initial, Expr.references]
  induction fields with
  | nil => rfl
  | cons f rest ih =>
    rw [List.filterMap_cons]
    split
    · exact ih
    · next entry hentry =>
      -- an entry starts as the empty list or as a default
      have hconst : entry.2.references bound = [] := by
        split at hentry
        · cases hentry
          rfl
        · split at hentry <;> cases hentry
          rfl
      rw [referencesOfEntries, hconst, ih]
      rfl

/-- The text of a full name, taken apart again, is the path to the type. -/
theorem attr_path_eq_reference {q : Place} {name : String} (h : q.scope.name.toText = .ok name)
    (id : String) : .attr (path name) id = reference (q, id) := by
  rw [reference, Value.toText_ok h]
  rfl

/-- The references of a value or field to be read or written: a function of the message that it is. -/
def targetReferences (t : Target) (id : String) : List Expr :=
  (t.message?.toList.map (·, id)).map reference

/-- Reading a value refers to the reader of the message in it, if it is one. -/
theorem references_readValue {t : Target} {e : Expr} (hcursor : cursorName ∈ bound)
    (hout : ∀ q, t.message? = some q → StartsOutside bound q) (h : readValue t = .ok e) :
    e.references bound = targetReferences t "read" := by
  cases t with
  | message q =>
    obtain ⟨name, hname, h⟩ := Outcome.bind_ok h
    cases h
    have hstop : (Expr.sum (cursorCall (Cursor.Method.read .varint).name [])
        (.attr (.name cursorName) "pos")).references bound = [] := by
      rw [Expr.references, references_cursorCall hcursor, references_member hcursor]
      rfl
    rw [attr_path_eq_reference hname, Expr.references, references_reference (hout q rfl)]
    simp only [referencesOf, references_name hcursor, hstop, List.append_nil]
    rfl
  | enumeration q | scalar t =>
    cases h
    rw [references_cursorCall hcursor, references_signedArgs]
    rfl

theorem references_writeCall {f : Field} {t : Target} {value e : Expr} (hcursor : cursorName ∈ bound)
    (hvalue : value.references bound = []) (hout : ∀ q, t.message? = some q → StartsOutside bound q)
    (h : writeCall f t value = .ok e) : e.references bound = targetReferences t "write" := by
  cases t with
  | message q =>
    obtain ⟨name, hname, h⟩ := Outcome.bind_ok h
    cases h
    rw [attr_path_eq_reference hname, references_cursorCall hcursor]
    simp only [referencesOf, references_reference (hout q rfl), hvalue, Expr.references, List.nil_append,
      List.append_nil]
    rfl
  | enumeration q | scalar t =>
    cases h
    rw [references_cursorCall hcursor]
    simp only [referencesOf, hvalue, Expr.references, List.append_nil]
    rfl

/-! ## Statements -/

variable {p : Place} {f : Field} {t : Target}

/-- The statement for a field refers to what reading its value refers to. -/
theorem references_readStatement {s : Stmt} (hcursor : cursorName ∈ bound) (hobj : objName ∈ bound)
    (ht : p.target f = .ok t) (hout : ∀ q, t.message? = some q → StartsOutside bound q)
    (h : readStatement p f = .ok s) : s.references bound = targetReferences t "read" := by
  obtain ⟨t', ht', h⟩ := Outcome.bind_ok h
  rw [ht] at ht'
  cases ht'
  split at h
  · next scalar hscalar =>
    cases h
    -- what is read as a run is no message
    have hnone : t.message? = none := by
      split at hscalar
      · cases t with
        | message q => cases hscalar
        | enumeration q | scalar t => rfl
      · cases hscalar
    simp only [Stmt.references, references_name hcursor, references_name hobj, references_signedArgs,
      targetReferences, hnone]
    rfl
  · obtain ⟨value, hvalue, h⟩ := Outcome.bind_ok h
    have hreferences := references_readValue hcursor hout hvalue
    cases h
    split <;> rw [Stmt.references, references_name hobj, hreferences, List.nil_append]

/-- Writing a field refers to the writer of the message in it, if it is one. -/
theorem references_writeStatement {s : Stmt} (hcursor : cursorName ∈ bound) (hobj : objName ∈ bound)
    (hbinds : s.binds ⊆ bound) (ht : p.target f = .ok t)
    (hout : ∀ q, t.message? = some q → StartsOutside bound q) (h : writeStatement p f = .ok s) :
    s.references bound = targetReferences t "write" := by
  obtain ⟨t', ht', h⟩ := Outcome.bind_ok h
  rw [ht] at ht'
  cases ht'
  split at h
  · split at h
    · obtain ⟨e, he, h⟩ := Outcome.bind_ok h
      cases h
      have he := references_writeCall hcursor (references_entry hobj f) hout he
      simp only [Stmt.references, Stmt.referencesAll, references_entryOrNone hobj, he, List.nil_append,
        List.append_nil]
    · obtain ⟨e, he, h⟩ := Outcome.bind_ok h
      cases h
      have hitem : itemName ∈ bound := hbinds (by simp)
      have he := references_writeCall hcursor (references_name hitem) hout he
      simp only [Stmt.references, Stmt.referencesAll, references_entryOrNone hobj, references_entry hobj, he,
        List.nil_append, List.append_nil]
  · obtain ⟨e, he, h⟩ := Outcome.bind_ok h
    cases h
    have he := references_writeCall hcursor (references_entry hobj f) hout he
    simp only [Stmt.references, Stmt.referencesAll, references_presence hobj, he, List.nil_append,
      List.append_nil]

theorem startsOutside_of_embedded_cons {fields : List Field} (ht : p.target f = .ok t)
    (hout : ∀ q ∈ p.embedded (f :: fields), StartsOutside bound q) :
    (∀ q, t.message? = some q → StartsOutside bound q) ∧ ∀ q ∈ p.embedded fields, StartsOutside bound q := by
  rw [Place.embedded_cons ht] at hout
  constructor
  · intro q hq
    apply hout q
    apply List.mem_append_left
    rw [hq]
    exact List.mem_singleton_self q
  · intro q hq
    exact hout q (List.mem_append_right _ hq)

/-- The reader of a type refers to the readers of the types of its fields. -/
theorem references_readChain {fields : List Field} {chain : List Stmt} (hcursor : cursorName ∈ bound)
    (hobj : objName ∈ bound) (htag : tagName ∈ bound)
    (hout : ∀ q ∈ p.embedded fields, StartsOutside bound q) (h : readChain p fields = .ok chain) :
    Stmt.referencesAll bound chain = ((p.embedded fields).map (·, "read")).map reference := by
  induction fields generalizing chain with
  | nil =>
    rw [readChain] at h
    cases h
    rfl
  | cons f rest ih =>
    rw [readChain] at h
    obtain ⟨otherwise, hotherwise, h⟩ := Outcome.bind_ok h
    obtain ⟨body, hbody, h⟩ := Outcome.bind_ok h
    cases h
    obtain ⟨t, ht, -⟩ := Outcome.bind_ok hbody
    obtain ⟨hfirst, hrest⟩ := startsOutside_of_embedded_cons ht hout
    have hbody := references_readStatement hcursor hobj ht hfirst hbody
    have hotherwise := ih hrest hotherwise
    simp only [Stmt.referencesAll, Stmt.references, Expr.references, if_pos htag, hbody, hotherwise,
      List.nil_append, List.append_nil]
    rw [Place.embedded_cons ht, List.map_append, List.map_append, targetReferences]

theorem references_writeStatements {fields : List Field} {body : List Stmt} (hcursor : cursorName ∈ bound)
    (hobj : objName ∈ bound) (hbinds : Stmt.bindsAll body ⊆ bound)
    (hout : ∀ q ∈ p.embedded fields, StartsOutside bound q)
    (h : List.Forall₂ (fun f s => writeStatement p f = .ok s) fields body) :
    Stmt.referencesAll bound body = ((p.embedded fields).map (·, "write")).map reference := by
  induction h with
  | nil => rfl
  | @cons f s fields body hs _ ih =>
    rw [Stmt.bindsAll] at hbinds
    obtain ⟨t, ht, -⟩ := Outcome.bind_ok hs
    obtain ⟨hfirst, hrest⟩ := startsOutside_of_embedded_cons ht hout
    have hs := references_writeStatement hcursor hobj (List.append_subset.1 hbinds).1 ht hfirst hs
    have hbody := ih (List.append_subset.1 hbinds).2 hrest
    rw [Stmt.referencesAll, hs, hbody, Place.embedded_cons ht, List.map_append, List.map_append,
      targetReferences]

end

/-! ## Calls -/

def readCall (q : Place) : Expr :=
  .call (reference (q, "read")) [.name cursorName,
    .sum (cursorCall (Cursor.Method.read .varint).name []) (.attr (.name cursorName) "pos")]

def writeMessageCall (field : Field) (q : Place) (value : Expr) : Expr :=
  cursorCall "write_message" [.const (.int field.tag), reference (q, "write"), value]

/-- A function that serves a field of a message type: where it stores fields, it stores what the reader of
the message gives under the name of the field, and where it writes them, it hands the writer of the message
to the cursor with the tag of the field. -/
structure Function.Serves (f : Function) (field : Field) (q : Place) : Prop where
  read : f.name = "_read_field" →
    (if field.repeated then Stmt.append objName field.name (readCall q)
      else .store objName field.name (readCall q)) ∈ Stmt.allOf f.body
  write : f.name = "write" →
    .eval (writeMessageCall field q (if field.repeated then .name itemName else entry field)) ∈
      Stmt.allOf f.body

section

variable {p q : Place} {field : Field}

/-- Reading a message appends it to a list or stores it, as the field is repeated or not. -/
theorem readStatement_message {s : Stmt} (ht : p.target field = .ok (.message q))
    (h : readStatement p field = .ok s) :
    s = if field.repeated then .append objName field.name (readCall q)
      else .store objName field.name (readCall q) := by
  obtain ⟨t, ht', h⟩ := Outcome.bind_ok h
  rw [ht] at ht'
  cases ht'
  have hrun : (if field.packable (.message q) then (Target.message q).scalar? else none) = none := by
    split <;> rfl
  rw [hrun] at h
  obtain ⟨value, hvalue, h⟩ := Outcome.bind_ok h
  obtain ⟨name, hname, hvalue⟩ := Outcome.bind_ok hvalue
  rw [attr_path_eq_reference hname] at hvalue
  cases hvalue
  cases h
  rfl

/-- Somewhere inside the statement for a field that holds messages, one of them is written. -/
theorem writeStatement_message {s : Stmt} (ht : p.target field = .ok (.message q))
    (h : writeStatement p field = .ok s) :
    .eval (writeMessageCall field q (if field.repeated then .name itemName else entry field)) ∈ s.all := by
  have hcall : ∀ value e, writeCall field (.message q) value = .ok e → e = writeMessageCall field q value := by
    intro value e he
    obtain ⟨name, hname, he⟩ := Outcome.bind_ok he
    rw [attr_path_eq_reference hname] at he
    cases he
    rfl
  obtain ⟨t, ht', h⟩ := Outcome.bind_ok h
  rw [ht] at ht'
  cases ht'
  have hrun : (Target.message q).packable = false := rfl
  have hsingle : field.isPacked (.message q) = false := by
    rw [Field.isPacked, Field.packable, hrun, Bool.and_false, Bool.and_false]
  cases hrep : field.repeated with
  | false =>
    rw [hrep] at h
    obtain ⟨e, he, h⟩ := Outcome.bind_ok h
    rw [hcall _ e he] at h
    cases h
    simp
  | true =>
    rw [hrep, hsingle] at h
    obtain ⟨e, he, h⟩ := Outcome.bind_ok h
    rw [hcall _ e he] at h
    cases h
    simp

/-- No field is left out of the chain. -/
theorem mem_allOf_readChain {fields : List Field} {chain : List Stmt} (h : readChain p fields = .ok chain)
    (hfield : field ∈ fields) : ∃ s, readStatement p field = .ok s ∧ s ∈ Stmt.allOf chain := by
  induction fields generalizing chain with
  | nil => cases hfield
  | cons first rest ih =>
    rw [readChain] at h
    obtain ⟨otherwise, hotherwise, h⟩ := Outcome.bind_ok h
    obtain ⟨body, hbody, h⟩ := Outcome.bind_ok h
    cases h
    rcases List.mem_cons.1 hfield with rfl | hfield
    · exact ⟨body, hbody, by simp [body.mem_all_self]⟩
    · obtain ⟨s, hs, hmem⟩ := ih hotherwise hfield
      exact ⟨s, hs, by simp [hmem]⟩

end

/-! ## Functions -/

inductive Generated (options : Options) (p : Place) : Function → Prop
  | read {name : String} : options.noRead = false → p.scope.name = .str name →
    Generated options p (readFunction name p.scope.fields)
  | field {chain : List Stmt} : options.noRead = false → readChain p p.scope.fields = .ok chain →
    Generated options p (fieldFunction chain)
  | write {body : List Stmt} : options.noWrite = false →
    p.scope.fields.mapM (writeStatement p) = .ok body → Generated options p (writeFunction body)

section

variable {options : Options} {p q : Place} {own : List Decl} {f : Function}

/-- The methods of a type are generated from its fields. -/
theorem generated_of_mem_methods (h : methods options p = .ok own) (hf : .method f ∈ own) :
    Generated options p f := by
  obtain ⟨reading, hreading, h⟩ := Outcome.bind_ok h
  obtain ⟨writing, hwriting, h⟩ := Outcome.bind_ok h
  cases h
  rcases List.mem_append.1 hf with hf | hf
  · unfold omitIf at hreading
    split at hreading
    · cases hreading
      cases hf
    · next hread =>
      obtain ⟨name, hname, hreading⟩ := Outcome.bind_ok hreading
      obtain ⟨chain, hchain, hreading⟩ := Outcome.bind_ok hreading
      cases hreading
      simp only [List.mem_cons, Decl.method.injEq, List.not_mem_nil, or_false] at hf
      rcases hf with rfl | rfl
      · exact .read (by simpa using hread) (Value.toText_ok hname)
      · exact .field (by simpa using hread) hchain
  · unfold omitIf at hwriting
    split at hwriting
    · cases hwriting
      cases hf
    · next hwrite =>
      obtain ⟨body, hbody, hwriting⟩ := Outcome.bind_ok hwriting
      cases hwriting
      simp only [List.mem_singleton, Decl.method.injEq] at hf
      rw [hf]
      exact .write (by simpa using hwrite) hbody

/-- Reading a field assigns to the message only. -/
theorem binds_readStatement {field : Field} {s : Stmt} (h : readStatement p field = .ok s) :
    s.binds = [objName] := by
  obtain ⟨t, -, h⟩ := Outcome.bind_ok h
  split at h
  · cases h
    rfl
  · obtain ⟨value, -, h⟩ := Outcome.bind_ok h
    cases h
    split <;> rfl

theorem binds_readChain {fields : List Field} {chain : List Stmt} (h : readChain p fields = .ok chain) :
    Stmt.bindsAll chain ⊆ [objName] := by
  induction fields generalizing chain with
  | nil =>
    rw [readChain] at h
    cases h
    simp
  | cons field rest ih =>
    rw [readChain] at h
    obtain ⟨otherwise, hotherwise, h⟩ := Outcome.bind_ok h
    obtain ⟨body, hbody, h⟩ := Outcome.bind_ok h
    cases h
    simpa [binds_readStatement hbody] using ih hotherwise

/-- Writing a field binds the item of a loop, if it has one. -/
theorem binds_writeStatement {field : Field} {s : Stmt} (h : writeStatement p field = .ok s) :
    s.binds ⊆ [itemName] := by
  obtain ⟨t, -, h⟩ := Outcome.bind_ok h
  split at h
  · split at h <;> obtain ⟨e, -, h⟩ := Outcome.bind_ok h <;> cases h <;>
      simp
  · obtain ⟨e, -, h⟩ := Outcome.bind_ok h
    cases h
    simp

theorem binds_writeStatements {fields : List Field} {body : List Stmt}
    (h : List.Forall₂ (fun field s => writeStatement p field = .ok s) fields body) :
    Stmt.bindsAll body ⊆ [itemName] := by
  induction h with
  | nil => simp
  | cons hs _ ih =>
    rw [Stmt.bindsAll]
    exact List.append_subset.2 ⟨binds_writeStatement hs, ih⟩

/-- Emitted functions bind local names only. -/
theorem Generated.locals_subset (h : Generated options p f) : f.locals ⊆ localNames := by
  apply List.append_subset.2
  cases h with
  | read =>
    constructor
    · show [cursorName, endName] ⊆ localNames
      decide
    · simp [readFunction]
  | field _ hchain =>
    constructor
    · show [tagName, objName, cursorName] ⊆ localNames
      decide
    · exact List.Subset.trans (binds_readChain hchain) (by decide)
  | write _ hbody =>
    constructor
    · show [objName, cursorName] ⊆ localNames
      decide
    · exact List.Subset.trans (binds_writeStatements (Outcome.mapM_ok hbody)) (by decide)

/-- An emitted function refers to the functions of messages that it calls, and to nothing else. -/
theorem Generated.references_eq (h : Generated options p f)
    (hout : ∀ callee ∈ p.callees f.name, StartsOutside localNames callee.1) :
    f.references = (p.callees f.name).map reference := by
  have hout : ∀ callee ∈ p.callees f.name, StartsOutside f.locals callee.1 := by
    intro callee hcallee id hid hmem
    exact hout callee hcallee id hid (h.locals_subset hmem)
  cases h with
  | @read name _ hname =>
    have hself : StartsOutside (readFunction name p.scope.fields).locals p :=
      hout (p, "_read_field") (List.mem_singleton_self _)
    have hown : Expr.attr (path name) "_read_field" = reference (p, "_read_field") := by
      rw [reference, hname]
      rfl
    have hcursor : cursorName ∈ (readFunction name p.scope.fields).locals := List.mem_cons_self
    have hend : endName ∈ (readFunction name p.scope.fields).locals :=
      List.mem_cons_of_mem _ List.mem_cons_self
    show Stmt.referencesAll _ [.give (cursorCall "read_fields" [.attr (path name) "_read_field",
      initial p.scope.fields, .name endName])] = _
    rw [hown, Stmt.referencesAll, Stmt.references, references_cursorCall hcursor]
    simp only [referencesOf, references_reference hself, references_initial, references_name hend,
      Stmt.referencesAll, List.append_nil]
    rfl
  | @field chain _ hchain =>
    have hbound : ∀ id ∈ [tagName, objName, cursorName], id ∈ (fieldFunction chain).locals :=
      fun id hid => List.mem_append_left _ hid
    apply references_readChain (hbound _ (by decide)) (hbound _ (by decide)) (hbound _ (by decide)) ?_ hchain
    intro q hq
    exact hout (q, "read") (List.mem_map_of_mem hq)
  | @write body _ hbody =>
    have hbound : ∀ id ∈ [objName, cursorName], id ∈ (writeFunction body).locals :=
      fun id hid => List.mem_append_left _ hid
    apply references_writeStatements (hbound _ (by decide)) (hbound _ (by decide))
      (List.subset_append_right _ _) ?_ (Outcome.mapM_ok hbody)
    intro q hq
    exact hout (q, "write") (List.mem_map_of_mem hq)

/-- An emitted function serves every field of a message type. -/
theorem Generated.serves (h : Generated options p f) {field : Field} (hfield : field ∈ p.scope.fields)
    (ht : p.target field = .ok (.message q)) : f.Serves field q := by
  have hread : "read" ≠ "_read_field" ∧ "read" ≠ "write" := by decide
  have hother : "write" ≠ "_read_field" := by decide
  cases h with
  | read => exact ⟨fun hname => absurd hname hread.1, fun hname => absurd hname hread.2⟩
  | field _ hchain =>
    refine ⟨fun _ => ?_, fun hname => absurd hname.symm hother⟩
    obtain ⟨s, hs, hmem⟩ := mem_allOf_readChain hchain hfield
    rwa [readStatement_message ht hs] at hmem
  | @write body _ hbody =>
    refine ⟨fun hname => absurd hname hother, fun _ => ?_⟩
    obtain ⟨s, hs, hstatement⟩ := Outcome.exists_right (Outcome.mapM_ok hbody) hfield
    exact Stmt.mem_allOf hs (writeStatement_message ht hstatement)

/-- What an emitted function refers to is emitted as well. -/
theorem Generated.exists_callee (h : Generated options p f) {id : String} (hq : (q, id) ∈ p.callees f.name)
    (hown : methods options q = .ok own) : ∃ g, .method g ∈ own ∧ g.name = id := by
  obtain ⟨fs, rfl, -, hreader, hwriter⟩ := methods_ok hown
  cases h with
  | read hr =>
    obtain ⟨name, chain, -, -, -, hfield⟩ := hreader hr
    cases List.mem_singleton.1 hq
    exact ⟨_, List.mem_map_of_mem hfield, rfl⟩
  | field hr =>
    obtain ⟨name, chain, -, -, hread, -⟩ := hreader hr
    obtain ⟨_, -, heq⟩ := List.mem_map.1 hq
    cases heq
    exact ⟨_, List.mem_map_of_mem hread, rfl⟩
  | write hw =>
    obtain ⟨body, -, hwrite⟩ := hwriter hw
    obtain ⟨_, -, heq⟩ := List.mem_map.1 hq
    cases heq
    exact ⟨_, List.mem_map_of_mem hwrite, rfl⟩

/-- A class binds the functions that are emitted for its message. -/
theorem ClassOf.lookup_generated {members : Bindings} (h : ClassOf options p members)
    (hf : Generated options p f) : members.lookup f.name = some (.function f) := by
  cases hf with
  | read hr hname =>
    obtain ⟨name, chain, hname', -, hread, -⟩ := h.reader hr
    rw [hname] at hname'
    cases hname'
    exact hread
  | field hr hchain =>
    obtain ⟨name, chain, -, hchain', -, hfield⟩ := h.reader hr
    rw [hchain] at hchain'
    cases hchain'
    exact hfield
  | write hw hbody =>
    obtain ⟨body, hbody', hwrite⟩ := h.writer hw
    rw [hbody] at hbody'
    cases hbody'
    exact hwrite

end

end ProtoScribe.Code
