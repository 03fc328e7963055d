import ProtoScribe.Code.Emit
import ProtoScribe.CommandLine.Grammar

/-!
# Commands

The two commands, what they take, and the texts that say so.
-/

namespace ProtoScribe.CommandLine

structure Compilation where
  schema : String
  output : Option String
  exports : Option String
  options : Code.Options
deriving DecidableEq, Repr

inductive Command
  | compile (c : Compilation)
  | scopes (schema : String)
deriving DecidableEq, Repr

/-- A command, and whether to say what is being done. -/
structure Invocation where
  verbose : Bool
  command : Command
deriving DecidableEq, Repr

def helpFlag (σ : Type) : Flag σ := ⟨["-h", "--help"], .help⟩

/-- The grammar around the commands; whether to be verbose is its only setting. -/
def programGrammar : Grammar Bool where
  program := "pbfgen"
  usage := "pbfgen [-h] [-v] \x7bcompile,scopes\x7d ..."
  description := "Command line interface for pbfgen. Generates Python readers and writers for " ++
    "protobuf message schemas."
  listing :=
    "positional arguments:\n" ++
    "  \x7bcompile,scopes\x7d\n" ++
    "    compile         Generate Python readers and writers for a schema.\n" ++
    "    scopes          Show the types of a schema with their resolved fields.\n" ++
    "\n" ++
    "options:\n" ++
    "  -h, --help        show this help message and exit\n" ++
    "  -v, --verbose     Enable debug logging.\n"
  flags := [helpFlag Bool, ⟨["-v", "--verbose"], .switch fun _ => true⟩]
  initial := false
  takesRest := true

/-- The settings of a compilation; the schema is its operand. -/
def compileGrammar : Grammar Compilation where
  program := "pbfgen compile"
  usage := "pbfgen compile [-h] [-o OUTPUT] [--no-read] [--no-write] [--exports EXPORTS] schema"
  description := "Generate a Python module with one class per message holding its read and write " ++
    "functions, and one dict per enum. The schema is either a JSON description of a parsed .proto " ++
    "file or a binary FileDescriptorSet (*.desc, *.pb, *.binpb) as written by protoc " ++
    "--descriptor_set_out."
  listing :=
    "positional arguments:\n" ++
    "  schema                Path to the schema (*.json, *.desc, *.pb, *.binpb)\n" ++
    "\n" ++
    "options:\n" ++
    "  -h, --help            show this help message and exit\n" ++
    "  -o OUTPUT, --output OUTPUT\n" ++
    "                        Write the generated source to this file instead of stdout\n" ++
    "  --no-read             Do not generate read functions\n" ++
    "  --no-write            Do not generate write functions\n" ++
    "  --exports EXPORTS     Bind top-level types as attributes of this name (default: plain " ++
    "module globals)\n"
  flags := [
    helpFlag Compilation,
    ⟨["-o", "--output"], .value fun path c => { c with output := some path }⟩,
    ⟨["--no-read"], .switch fun c => { c with options := { c.options with noRead := true } }⟩,
    ⟨["--no-write"], .switch fun c => { c with options := { c.options with noWrite := true } }⟩,
    ⟨["--exports"], .value fun name c => { c with exports := some name }⟩]
  initial := ⟨"", none, none, {}⟩
  takesRest := false

def scopesGrammar : Grammar Unit where
  program := "pbfgen scopes"
  usage := "pbfgen scopes [-h] schema"
  description := "Display every message and enum of a schema as a tree, with each field's tag, " ++
    "type, resolved type reference, packing and default."
  listing :=
    "positional arguments:\n" ++
    "  schema      Path to the schema (*.json, *.desc, *.pb, *.binpb)\n" ++
    "\n" ++
    "options:\n" ++
    "  -h, --help  show this help message and exit\n"
  flags := [helpFlag Unit]
  initial := ()
  takesRest := false

/-- Makes sense of the arguments of a command that needs a schema. -/
def Grammar.parseSchema {σ : Type} (g : Grammar σ) (args : List String) :
    Except Halt (String × σ × List String) := do
  let p ← g.parse args
  match p.operand with
  | some (schema, _) => return (schema, p.settings, p.extras)
  | none => throw (g.misuse "the following arguments are required: schema")

/-- The command of a name with its arguments, and those it has no use for. -/
def Command.parse (name : String) (args : List String) : Except Halt (Command × List String) :=
  if name = "compile" then do
    let (schema, c, extras) ← compileGrammar.parseSchema args
    return (.compile { c with schema }, extras)
  else if name = "scopes" then do
    let (schema, _, extras) ← scopesGrammar.parseSchema args
    return (.scopes schema, extras)
  else .error (programGrammar.misuse
    ("argument command: invalid choice: " ++ Text.quoted name ++
      " (choose from 'compile', 'scopes')"))

/-- Makes sense of all arguments. Without a command the help text is shown. -/
def Invocation.parse (args : List String) : Except Halt Invocation := do
  let p ← programGrammar.parse args
  let unrecognized (extras : List String) : Except Halt Unit :=
    if extras.isEmpty then .ok ()
    else .error (programGrammar.misuse ("unrecognized arguments: " ++ " ".intercalate extras))
  match p.operand with
  | none => do
    unrecognized p.extras
    throw (.help programGrammar.help)
  | some (name, args) => do
    let (command, extras) ← Command.parse name args
    unrecognized (p.extras ++ extras)
    return ⟨p.settings, command⟩

end ProtoScribe.CommandLine
