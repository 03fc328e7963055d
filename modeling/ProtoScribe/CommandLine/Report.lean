import ProtoScribe.Code.Printer
import ProtoScribe.CommandLine.Command
import ProtoScribe.CommandLine.Directory
import ProtoScribe.CommandLine.Note
import ProtoScribe.CommandLine.Tree

/-!
# Running commands

`report` says what a run on some arguments does: what it prints on either channel, which file it
writes, and how it ends. Nothing is printed by a run that fails.
-/

namespace ProtoScribe.CommandLine

structure Transcript where
  notes : List Note
  out : String
  written : Option (String × String)

/-- A command in progress; what was done before a fault stays done. -/
abbrev Session := EStateM Fault Transcript

structure Report where
  /-- The exit status, or a fault that nobody handled. -/
  result : Except Fault Nat
  out : String
  err : String
  /-- The file that was written, with its text. -/
  written : Option (String × String)

namespace Session

def lift {α : Type} (r : Except Fault α) : Session α := fun t =>
  match r with
  | .ok a => .ok a t
  | .error e => .error e t

def say (notes : List Note) : Session Unit :=
  modify fun t => { t with notes := t.notes ++ notes }

def print (text : String) : Session Unit :=
  modify fun t => { t with out := t.out ++ text }

def writeFile (d : Directory) (path text : String) : Session Unit := do
  lift (d.write path)
  modify fun t => { t with written := some (Path.normal path, text) }

def load (d : Directory) (path : String) : Session Schema := do
  say [loadingNote path]
  let content ← lift (d.read path)
  say (convertingNote path content)
  lift (Schema.ofFile path content)

def context (s : Schema) : Session Scope := do
  say (contextNotes s)
  lift s.context

def compile (d : Directory) (c : Compilation) : Session Unit := do
  let root ← context (← load d c.schema)
  say (codeNotes c.options c.exports root)
  let source := Code.source (← lift (Code.ofContext c.options c.exports root))
  match c.output with
  | none => print source
  | some path =>
    writeFile d path source
    say [.info "pbfgen.cli.generate" ("Wrote " ++ Path.normal path)]

def scopes (d : Directory) (path : String) : Session Unit := do
  let s ← load d path
  let root ← context s
  let title := Path.name path ++ " (proto" ++ toString s.version.number ++ ")"
  print (← lift (contextTree title root)).render

def run (d : Directory) : Command → Session Unit
  | .compile c => compile d c
  | .scopes path => scopes d path

end Session

def Halt.report : Halt → Report
  | .help text => ⟨.ok 0, text, "", none⟩
  | .misuse usage program message =>
    ⟨.ok 2, "", "usage: " ++ usage ++ "\n" ++ program ++ ": error: " ++ message ++ "\n", none⟩

def noteText (verbose : Bool) (notes : List Note) : String :=
  if verbose then String.join (notes.map (·.line ++ "\n")) else ""

/-- What a run of a command leaves. A fault with a wording is handled: its wording is printed. -/
def Invocation.report (i : Invocation) (d : Directory) : Report :=
  match Session.run d i.command ⟨[], "", none⟩ with
  | .ok _ t => ⟨.ok 0, t.out, noteText i.verbose t.notes, t.written⟩
  | .error e t =>
    let notes := noteText i.verbose t.notes
    match e.message? with
    | some message => ⟨.ok 1, t.out, notes ++ "error: " ++ message ++ "\n", t.written⟩
    | none => ⟨.error e, t.out, notes, t.written⟩

def report (args : List String) (d : Directory) : Report :=
  match Invocation.parse args with
  | .ok i => i.report d
  | .error h => h.report

end ProtoScribe.CommandLine
