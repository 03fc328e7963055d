import ProtoScribe.Code.Emit
import ProtoScribe.Schema.File

/-!
# Notes on progress

What a verbose run says about each of its steps. A step that fails says nothing, and neither does any
step after it; `Progress` tells how far a series of steps came.
-/

namespace ProtoScribe.CommandLine

structure Note where
  level : String
  origin : String
  text : String
deriving DecidableEq, Repr

namespace Note

def line (n : Note) : String := n.level ++ ":" ++ n.origin ++ ":" ++ n.text

def debug (origin text : String) : Note := ⟨"DEBUG", origin, text⟩

def info (origin text : String) : Note := ⟨"INFO", origin, text⟩

end Note

/-- The notes of a series of steps, and whether it came to its end. -/
structure Progress where
  notes : List Note
  complete : Bool

namespace Progress

def start : Progress := ⟨[], true⟩

/-- A step without a note, which may fail. -/
def check {α : Type} (r : Except Fault α) : Progress := ⟨[], r.toBool⟩

def say (n : Note) : Progress := ⟨[n], true⟩

/-- One series after another, if the first came to its end. -/
def andThen (a b : Progress) : Progress :=
  if a.complete then ⟨a.notes ++ b.notes, b.complete⟩ else a

end Progress

/-! ### Loading -/

def loadingNote (path : String) : Note :=
  .debug "pbfgen.schema.loader"
    ((if isDescriptorPath path then "Loading descriptor set from " else "Loading JSON schema from ") ++
      Path.normal path)

def convertingNote (path : String) (content : List UInt8) : List Note :=
  if isDescriptorPath path then
    match Descriptor.files content >>= Descriptor.select none with
    | .ok file => [.debug "pbfgen.schema.descriptor"
        s!"Converting {file.name} ({file.messages.length} messages)"]
    | .error _ => []
  else []

/-! ### Scopes and defaults -/

mutual

/-- The notes on attaching defaults to a scope and those below it. -/
def attachProgress (version : Version) (outer : List Scope) : Scope → Progress
  | ⟨label, name, isTop, kind, fields, children⟩ =>
    let s : Scope := ⟨label, name, isTop, kind, fields, children⟩
    (attachAllProgress version (s :: outer) children).andThen <|
      if fields.isEmpty then .start
      else (Progress.check (fields.mapM (·.withDefault version ⟨s, outer⟩))).andThen <|
        .say (.debug "pbfgen.schema.defaults" ("Resolved defaults for " ++ name.plain))

def attachAllProgress (version : Version) (outer : List Scope) : List Scope → Progress
  | [] => .start
  | s :: rest => (attachProgress version outer s).andThen (attachAllProgress version outer rest)

end

def contextNotes (s : Schema) : List Note :=
  match Scope.ofSchema s with
  | .ok root =>
    .debug "pbfgen.schema.scope" s!"Built scope tree with {root.walk.length - 1} types" ::
      (attachProgress s.version [] root).notes
  | .error _ => []

/-! ### Code -/

mutual

def declareProgress (options : Code.Options) (outer : List Scope) : Scope → Progress
  | ⟨label, name, isTop, kind, fields, children⟩ =>
    let s : Scope := ⟨label, name, isTop, kind, fields, children⟩
    match kind with
    | .enumeration _ => .check s.shortName
    | .root | .message =>
      (Progress.check (Code.methods options ⟨s, outer⟩)).andThen <|
      (nestedProgress options (s :: outer) children).andThen <|
      (Progress.say (.debug "pbfgen.compiler.emitter"
        s!"Emitted message {name.plain} ({fields.length} fields)")).andThen <|
      .check s.shortName

def nestedProgress (options : Code.Options) (outer : List Scope) : List Scope → Progress
  | [] => .start
  | s :: rest =>
    (Progress.check (Code.checkNested s)).andThen <|
    (declareProgress options outer s).andThen <|
    nestedProgress options outer rest

end

def topProgress (options : Code.Options) (exports : Option String) (outer : List Scope) :
    List Scope → Progress
  | [] => .start
  | s :: rest =>
    (Progress.check (Code.checkTop exports s)).andThen <|
    (declareProgress options outer s).andThen <|
    topProgress options exports outer rest

def codeNotes (options : Code.Options) (exports : Option String) (root : Scope) : List Note :=
  ((topProgress options exports [root] root.children).andThen <|
    .say (.debug "pbfgen.compiler" s!"Compiled {root.children.length} top-level types")).notes

end ProtoScribe.CommandLine
