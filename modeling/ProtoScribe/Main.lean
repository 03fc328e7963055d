import ProtoScribe.CommandLine.Report

/-!
# The program

Reads the schema file that the arguments name, and carries out what the report of the run says.
-/

namespace ProtoScribe.CommandLine

def Command.schema : Command → String
  | .compile c => c.schema
  | .scopes path => path

def readContent (path : String) : IO (Except Fault (List UInt8)) := do
  try return .ok (← IO.FS.readBinFile path).toList
  catch _ => return .error .noFile

def runProgram (args : List String) : IO UInt32 := do
  let content ← match Invocation.parse args with
    | .ok i => readContent i.command.schema
    | .error _ => pure (.error .noFile)
  let r := report args ⟨fun _ => content, fun _ => .ok ()⟩
  if let some (path, text) := r.written then IO.FS.writeFile path text
  (← IO.getStdout).putStr r.out
  (← IO.getStderr).putStr r.err
  match r.result with
  | .ok status => return UInt32.ofNat status
  | .error e =>
    (← IO.getStderr).putStrLn (reprStr e)
    return 1

end ProtoScribe.CommandLine

def main (args : List String) : IO UInt32 := ProtoScribe.CommandLine.runProgram args
