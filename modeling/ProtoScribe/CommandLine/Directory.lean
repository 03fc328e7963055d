import ProtoScribe.Fault
import ProtoScribe.Path

/-!
# Files

What a run needs to know about files: the content of those it reads, and whether it can write one.
`Directory.ofFiles` is the working directory that holds the given files and nothing else.
-/

namespace ProtoScribe.CommandLine

structure Directory where
  read : String → Except Fault (List UInt8)
  /-- Fails where no file can be written. -/
  write : String → Except Fault Unit

/-- The files of a directory, by paths relative to it. -/
abbrev Files := List (String × List UInt8)

namespace Files

def paths (files : Files) : List (List String) := files.map fun (name, _) => Path.parts name

def content? (files : Files) (path : List String) : Option (List UInt8) :=
  (files.find? fun (name, _) => Path.parts name = path).map Prod.snd

/-- Whether a path leads to a directory: to the working directory or to one that holds a file. -/
def isDirectory (files : Files) (path : List String) : Bool :=
  files.paths.any (fun file => path.isPrefixOf file && path != file) || path.isEmpty

/-- What is wrong with a path that leads nowhere: it goes through a file, or through nothing. -/
def absence (files : Files) (path : List String) : Fault :=
  if files.paths.any fun file => file.isPrefixOf path && path != file then .notDirectory
  else .noFile

def read (files : Files) (path : String) : Except Fault (List UInt8) :=
  let parts := Path.parts path
  if path.toList.contains '\x00' then .error .badValue
  else if !(Path.root path).isEmpty then .error .noFile
  else if files.isDirectory parts then .error .isDirectory
  else match files.content? parts with
    | some content => .ok content
    | none => .error (files.absence parts)

/-- Whether a file can be written: not in place of a directory, and only into an existing one. -/
def write (files : Files) (path : String) : Except Fault Unit :=
  let parts := Path.parts path
  if path.toList.contains '\x00' then .error .badValue
  else if !(Path.root path).isEmpty then .error .noFile
  else if files.isDirectory parts then .error .isDirectory
  else if files.isDirectory parts.dropLast then .ok ()
  else .error (files.absence parts)

end Files

def Directory.ofFiles (files : Files) : Directory := ⟨files.read, files.write⟩

end ProtoScribe.CommandLine
