/-!
# File paths

Paths are normalised textually: empty and `.` components are dropped, `..` is kept.
-/

namespace ProtoScribe.Path

def parts (path : String) : List String :=
  (path.splitOn "/").filter fun part => part ≠ "" ∧ part ≠ "."

/-- The root that a path starts from: none, a slash, or exactly two slashes. -/
def root (path : String) : String :=
  match path.toList with
  | '/' :: '/' :: '/' :: _ => "/"
  | '/' :: '/' :: _ => "//"
  | '/' :: _ => "/"
  | _ => ""

def normal (path : String) : String :=
  let text := root path ++ "/".intercalate (parts path)
  if text.isEmpty then "." else text

def name (path : String) : String := (parts path).getLast?.getD ""

/-- The last component from its last dot on; empty when that dot is the first or last character. -/
def suffix (path : String) : String :=
  let cs := (name path).toList
  let tail := cs.reverse.takeWhile (· ≠ '.')
  if tail.isEmpty ∨ cs.length ≤ tail.length + 1 then ""
  else String.ofList ('.' :: tail.reverse)

end ProtoScribe.Path
