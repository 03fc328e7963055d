import ProtoScribe.Text.Numeral
import ProtoScribe.Text.Quoted

/-!
# Arguments of a command

A grammar lists the flags that a command takes and says whether its operand takes the rest of the
arguments with it. Long flags may be abbreviated as long as that is unambiguous and take their value
after `=` or as the next argument; short flags may be joined, the last one with its value. What is
joined to a flag and is no flag itself is kept as an extra. All that follows `--` is an operand. Arguments that the command has no use for are kept as extras.

Arguments are first sorted into words, so that an ambiguous flag anywhere is reported before anything
else, and then consumed from left to right.
-/

namespace ProtoScribe.CommandLine

/-- What a flag does to the settings of a command. -/
inductive Action (σ : Type)
  /-- Shows the help text and ends. -/
  | help
  | switch (set : σ → σ)
  | value (set : String → σ → σ)

structure Flag (σ : Type) where
  names : List String
  action : Action σ

structure Grammar (σ : Type) where
  program : String
  usage : String
  description : String
  /-- The part of the help text that lists the arguments. -/
  listing : String
  flags : List (Flag σ)
  initial : σ
  /-- Whether all that follows the operand belongs to it. -/
  takesRest : Bool

inductive Halt
  | help (text : String)
  | misuse (usage program message : String)
deriving DecidableEq, Repr

/-- What an argument holds beside the name of a flag. -/
inductive Attached
  | nothing
  /-- Text right after the name. -/
  | joined (text : List Char)
  /-- Text after an equals sign. -/
  | assigned (value : String)
deriving DecidableEq, Repr

/-- An argument by the role it can have. -/
inductive Word (σ : Type)
  | operand (text : String)
  | divider
  | flag (text : String) (flag : Flag σ) (attached : Attached)
  /-- A flag that the command does not know. -/
  | unknown (text : String)

structure Parsed (σ : Type) where
  settings : σ
  /-- The operand, with what follows it if that belongs to it. -/
  operand : Option (String × List String)
  extras : List String

namespace Flag

variable {σ : Type}

def title (f : Flag σ) : String := "/".intercalate f.names

def takesValue (f : Flag σ) : Bool :=
  match f.action with
  | .value _ => true
  | .help | .switch _ => false

end Flag

namespace Word

variable {σ : Type}

def text : Word σ → String
  | .operand text | .flag text _ _ | .unknown text => text
  | .divider => "--"

end Word

namespace Grammar

variable {σ : Type}

def help (g : Grammar σ) : String :=
  "usage: " ++ g.usage ++ "\n\n" ++ g.description ++ "\n\n" ++ g.listing

/-- The end of a command that was not used as it should be. -/
def misuse (g : Grammar σ) (message : String) : Halt := .misuse g.usage g.program message

def names (g : Grammar σ) : List (String × Flag σ) :=
  g.flags.flatMap fun f => f.names.map (·, f)

/-! ### Words -/

def splitValue (arg : String) : String × Attached :=
  let cs := arg.toList
  match cs.dropWhile (· ≠ '=') with
  | [] => (arg, .nothing)
  | _ :: value => (String.ofList (cs.takeWhile (· ≠ '=')), .assigned (String.ofList value))

/-- The flags that an argument can be short for, by name, and what the argument then holds beside
it. -/
def candidates (g : Grammar σ) (arg : String) : List (String × Flag σ × Attached) :=
  match arg.toList with
  | '-' :: '-' :: _ =>
    let (start, attached) := splitValue arg
    g.names.filterMap fun (name, f) =>
      if start.toList.isPrefixOf name.toList then some (name, f, attached) else none
  | '-' :: c :: rest =>
    g.names.filterMap fun (name, f) =>
      if name.toList = ['-', c] then some (name, f, .joined rest)
      else if arg.toList.isPrefixOf name.toList then some (name, f, .nothing)
      else none
  | _ => []

def isNegativeNumber (arg : String) : Bool :=
  let isDigit (c : Char) : Bool := (Text.digit? c).isSome
  match arg.toList with
  | '-' :: cs =>
    match cs.dropWhile isDigit with
    | [] => !cs.isEmpty
    | '.' :: fraction => !fraction.isEmpty && fraction.all isDigit
    | _ => false
  | _ => false

/-- Finds the role of an argument. What looks like a flag is an operand nevertheless when it is a
negative number or has a blank in it. -/
def word (g : Grammar σ) (arg : String) : Except Halt (Word σ) :=
  if arg.toList.head? ≠ some '-' then .ok (.operand arg)
  else match g.names.lookup arg with
    | some f => .ok (.flag arg f .nothing)
    | none =>
      if arg = "-" then .ok (.operand arg)
      else
        let (name, attached) := splitValue arg
        match g.names.lookup name with
        | some f => .ok (.flag arg f attached)
        | none => match g.candidates arg with
          | [] =>
            if isNegativeNumber arg || arg.toList.contains ' ' then .ok (.operand arg)
            else .ok (.unknown arg)
          | [(_, f, attached)] => .ok (.flag arg f attached)
          | many =>
            let options := ", ".intercalate (many.map Prod.fst)
            .error (g.misuse ("ambiguous option: " ++ arg ++ " could match " ++ options))

/-- Finds the roles of arguments. -/
def words (g : Grammar σ) : List String → Except Halt (List (Word σ))
  | [] => .ok []
  | arg :: rest =>
    if arg = "--" then .ok (.divider :: rest.map .operand)
    else do
      let w ← g.word arg
      let ws ← g.words rest
      return w :: ws

/-! ### Flags -/

/-- The flags that one argument sets, one more if it still needs a value, and what is left over. -/
structure Cluster (σ : Type) where
  settled : List (Flag σ × String)
  pending : Option (Flag σ)
  extras : List String

/-- The error of a flag that cannot do with the value it was given. -/
def ignored (g : Grammar σ) (f : Flag σ) (value : String) : Halt :=
  g.misuse ("argument " ++ f.title ++ ": ignored explicit argument " ++ Text.quoted value)

def assign (g : Grammar σ) (f : Flag σ) (value : String) : Except Halt (Cluster σ) :=
  if f.takesValue then .ok ⟨[(f, value)], none, []⟩ else .error (g.ignored f value)

/-- A flag with characters right after its name: its value, or the names of more flags. -/
def join (g : Grammar σ) (f : Flag σ) : List Char → Except Halt (Cluster σ)
  | [] => .ok (if f.takesValue then ⟨[], some f, []⟩ else ⟨[(f, "")], none, []⟩)
  | c :: cs =>
    if f.takesValue then .ok ⟨[(f, String.ofList (c :: cs))], none, []⟩
    else if c = '-' then .error (g.ignored f (String.ofList (c :: cs)))
    else match g.names.lookup (String.ofList ['-', c]) with
      | some next => do
        let tail ← match cs with
          | '=' :: value => g.assign next (String.ofList value)
          | _ => g.join next cs
        return { tail with settled := (f, "") :: tail.settled }
      | none => .ok ⟨[(f, "")], none, [String.ofList ('-' :: c :: cs)]⟩

def cluster (g : Grammar σ) (f : Flag σ) : Attached → Except Halt (Cluster σ)
  | .nothing => g.join f []
  | .joined text => g.join f text
  | .assigned value => g.assign f value

def apply (g : Grammar σ) (settings : σ) (f : Flag σ × String) : Except Halt σ :=
  match f.1.action with
  | .help => .error (.help g.help)
  | .switch set => .ok (set settings)
  | .value set => .ok (set f.2 settings)

/-! ### Consuming words -/

/-- Consumes words from left to right. A divider belongs to the operand next to it; `taken` tells
whether the last word was the operand. -/
def consume (g : Grammar σ) (taken : Bool) : List (Word σ) → Parsed σ → Except Halt (Parsed σ)
  | [], p => .ok p
  | .unknown text :: rest, p => g.consume false rest { p with extras := p.extras ++ [text] }
  | .flag _ f attached :: rest, p => do
    let c ← g.cluster f attached
    let p := { p with extras := p.extras ++ c.extras }
    match c.pending with
    | none =>
      let settings ← c.settled.foldlM g.apply p.settings
      g.consume false rest { p with settings }
    | some last => match rest with
      | .operand v :: rest =>
        let settings ← (c.settled ++ [(last, v)]).foldlM g.apply p.settings
        g.consume false rest { p with settings }
      | _ => .error (g.misuse ("argument " ++ last.title ++ ": expected one argument"))
  | .operand text :: rest, p =>
    if p.operand.isSome then g.consume false rest { p with extras := p.extras ++ [text] }
    else if g.takesRest then .ok { p with operand := some (text, rest.map Word.text) }
    else g.consume true rest { p with operand := some (text, []) }
  | .divider :: rest, p =>
    if taken then g.consume false rest p
    else if p.operand.isSome then g.consume false rest { p with extras := p.extras ++ ["--"] }
    else match rest with
      | .operand text :: rest =>
        if g.takesRest then .ok { p with operand := some ("--", text :: rest.map Word.text) }
        else g.consume false rest { p with operand := some (text, []) }
      | other => .ok { p with extras := p.extras ++ "--" :: other.map Word.text }

def parse (g : Grammar σ) (args : List String) : Except Halt (Parsed σ) := do
  g.consume false (← g.words args) ⟨g.initial, none, []⟩

end Grammar

end ProtoScribe.CommandLine
