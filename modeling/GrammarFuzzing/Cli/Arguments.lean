import GrammarFuzzing.Number.Reading

/-!
# The command line

A command line names a **command** and its options. `GrammarFuzzing.Command.ofArguments` reads one
from left to right, and stops at the first thing that is wrong with it, or at a question for help:

* `--name value` and `--name=value` give a value to a long option;
* `-n value`, `-nvalue` and `-n=value` give one to a short option, which may end a cluster of short
  ones, as in `-vn value`;
* a value of its own argument must not look like an option; alone, `-` does not;
* no option may be given twice. Only `-v` may be given both before and after the command;
* there are no other arguments, before or after `--`.
-/

namespace GrammarFuzzing

/-- **What to run and how.** A path that is missing stands for what is done without that file. -/
structure RunOptions where
  /-- The file of the settings. -/
  config : Option String := none
  /-- The file of the grammar. -/
  grammar : String
  /-- The file of the constraints. -/
  constraints : Option String := none
  /-- The greatest number of generations, in place of the one in the settings. -/
  generations : Option Nat := none
  /-- The seed, in place of the one in the settings. -/
  seed : Option Nat := none
  /-- The directory for the solutions. -/
  output : Option String := none
  deriving DecidableEq

/-- Where an argument stands: before the command or after it. -/
inductive CommandLevel
  | top
  | run
  | describe
  deriving DecidableEq

/-- **A command.** -/
inductive Command
  /-- Evolve inputs that satisfy the constraints. -/
  | run (options : RunOptions)
  /-- Write a grammar as a specification. -/
  | describe (grammar : String)
  /-- Explain the commands, or one of them. -/
  | help (level : CommandLevel)
  /-- Tell the version. -/
  | version
  deriving DecidableEq

/-- **What is wrong with a command line.** -/
inductive UsageError
  | missingCommand
  | unknownArgument (argument : String)
  | missingOption (name : String)
  | missingValue (name : String)
  /-- A value that the option does not take. -/
  | invalidValue (name value : String)
  | repeated (name : String)
  deriving DecidableEq

/-- The error in words. -/
def UsageError.message : UsageError → String
  | .missingCommand => "a command is required"
  | .unknownArgument a => "unexpected argument '" ++ a ++ "'"
  | .missingOption name => "the option '" ++ name ++ "' is required"
  | .missingValue name => "a value is required for '" ++ name ++ "'"
  | .invalidValue name value => "invalid value '" ++ value ++ "' for '" ++ name ++ "'"
  | .repeated name => "the option '" ++ name ++ "' cannot be used more than once"

namespace CommandLine

/-! ### Options -/

/-- An option with a value. -/
inductive Parameter
  | config
  | grammar
  | constraints
  | generations
  | seed
  | output
  deriving DecidableEq

/-- The long name of an option with a value. -/
def Parameter.name : Parameter → String
  | .config => "config"
  | .grammar => "grammar"
  | .constraints => "constraints"
  | .generations => "generations"
  | .seed => "seed"
  | .output => "output"

/-- An option. -/
inductive Switch
  | verbose
  | help
  | version
  | parameter (p : Parameter)
  deriving DecidableEq

/-- The options that are known somewhere, with their names. -/
def switches : CommandLevel → List (String × Option Char × Switch)
  | .top => [("verbose", some 'v', .verbose), ("help", some 'h', .help),
      ("version", some 'V', .version)]
  | .run => [("verbose", some 'v', .verbose), ("help", some 'h', .help),
      ("config", some 'c', .parameter .config), ("grammar", some 'g', .parameter .grammar),
      ("constraints", none, .parameter .constraints),
      ("generations", none, .parameter .generations), ("seed", none, .parameter .seed),
      ("output", some 'o', .parameter .output)]
  | .describe => [("verbose", some 'v', .verbose), ("help", some 'h', .help),
      ("grammar", some 'g', .parameter .grammar)]

/-- The option with a long name. -/
def long? (level : CommandLevel) (name : String) : Option Switch :=
  ((switches level).find? fun s => s.1 = name).map (·.2.2)

/-- The option with a short name. -/
def short? (level : CommandLevel) (c : Char) : Option Switch :=
  ((switches level).find? fun s => s.2.1 = some c).map (·.2.2)

/-- The command with a name. -/
def command? : String → Option CommandLevel
  | "run" => some .run
  | "show" => some .describe
  | _ => none

/-! ### What was given -/

/-- **What has been read** of a command line: where it stands now, and the options given. -/
structure Given where
  level : CommandLevel := .top
  verbose : Bool := false
  config : Option String := none
  grammar : Option String := none
  constraints : Option String := none
  generations : Option Nat := none
  seed : Option Nat := none
  output : Option String := none

/-- Why the reading of a command line ended early. -/
inductive Halt
  | usage (error : UsageError)
  /-- A command that needs nothing else. -/
  | command (c : Command)

/-- A reading that may end early. -/
abbrev Reading := Except Halt

/-- Ends with an error. -/
def refuse {α : Type} (e : UsageError) : Reading α :=
  .error (.usage e)

/-- The value of an option that takes a path. -/
def pathOf (name value : String) : Reading String :=
  if value.isEmpty then refuse (.missingValue name) else .ok value

/-- The value of an option that takes a number of 64 bits. -/
def numberOf (name value : String) : Reading Nat :=
  let digits := match value.toList with
    | '+' :: rest => rest
    | cs => cs
  match digitsValue? digits with
  | some n => if n < Nat.pow 2 64 then .ok n else refuse (.invalidValue name value)
  | none => refuse (.invalidValue name value)

/-- The value of an option that was not given before. -/
def once {α : Type} (name : String) (before : Option α) (value : Reading α) :
    Reading (Option α) :=
  if before.isSome then refuse (.repeated name) else value.map some

/-- Takes the value of an option. -/
def Given.give (g : Given) (p : Parameter) (value : String) : Reading Given := do
  let name := p.name
  match p with
  | .config => return { g with config := ← once name g.config (pathOf name value) }
  | .grammar => return { g with grammar := ← once name g.grammar (pathOf name value) }
  | .constraints =>
    return { g with constraints := ← once name g.constraints (pathOf name value) }
  | .generations =>
    return { g with generations := ← once name g.generations (numberOf name value) }
  | .seed => return { g with seed := ← once name g.seed (numberOf name value) }
  | .output => return { g with output := ← once name g.output (pathOf name value) }

/-- Takes an option without a value. One with a value is left to whoever has the value. -/
def Given.mark (g : Given) : Switch → Reading Given
  | .verbose =>
    if g.verbose then refuse (.repeated "verbose") else .ok { g with verbose := true }
  | .help => .error (.command (.help g.level))
  | .version => .error (.command .version)
  | .parameter _ => .ok g

/-! ### Reading -/

/-- Whether an argument looks like an option. -/
def looksLikeOption (argument : String) : Bool :=
  match argument.toList with
  | '-' :: _ :: _ => true
  | _ => false

/-- A long option: what was given with it, and the option that still needs a value. -/
def readLong (g : Given) (body : List Char) : Reading (Given × Option Parameter) :=
  let name := String.ofList (body.takeWhile fun c => c != '=')
  let attached := match body.dropWhile fun c => c != '=' with
    | _ :: value => some (String.ofList value)
    | [] => none
  match long? g.level name, attached with
  | some (.parameter p), some value => return (← g.give p value, none)
  | some (.parameter p), none => return (g, some p)
  | some s, none => return (← g.mark s, none)
  | some _, some value => refuse (.invalidValue name value)
  | none, _ => refuse (.unknownArgument ("--" ++ name))

/-- A cluster of short options: what was given with it, and the option that still needs a value. -/
def readCluster (g : Given) : List Char → Reading (Given × Option Parameter)
  | [] => return (g, none)
  | c :: rest =>
    match short? g.level c with
    | some (.parameter p) =>
      match rest with
      | [] => return (g, some p)
      | '=' :: value => return (← g.give p (String.ofList value), none)
      | value => return (← g.give p (String.ofList value), none)
    | some s => do readCluster (← g.mark s) rest
    | none => refuse (.unknownArgument ("-" ++ c.toString))

/-- The arguments after the command `help`: at most the name of a command. -/
def readHelp : List String → Reading Given
  | [] => .error (.command (.help .top))
  | [name] =>
    match command? name with
    | some level => .error (.command (.help level))
    | none =>
      if name = "help" then .error (.command (.help .top)) else refuse (.unknownArgument name)
  | _ :: other :: _ => refuse (.unknownArgument other)

/-- **Reads arguments** one after the other. An option that still needs a value takes the
next one. -/
def readArguments : Option Parameter → Given → List String → Reading Given
  | none, g, [] => return g
  | some p, _, [] => refuse (.missingValue p.name)
  | some p, g, a :: rest => do
    if looksLikeOption a then refuse (.missingValue p.name)
    else readArguments none (← g.give p a) rest
  | none, g, a :: rest =>
    match a.toList with
    | ['-', '-'] =>
      match rest with
      | [] => return g
      | other :: _ => refuse (.unknownArgument other)
    | '-' :: '-' :: body => do
      let (g, waiting) ← readLong g body
      readArguments waiting g rest
    | '-' :: c :: body => do
      let (g, waiting) ← readCluster g (c :: body)
      readArguments waiting g rest
    | _ =>
      if g.level = .top then
        match command? a with
        | some level => readArguments none { level := level } rest
        | none => if a = "help" then readHelp rest else refuse (.unknownArgument a)
      else refuse (.unknownArgument a)

/-- The command that was given. -/
def Given.command (g : Given) : Except UsageError Command :=
  match g.level, g.grammar with
  | .top, _ => .error .missingCommand
  | _, none => .error (.missingOption "grammar")
  | .describe, some grammar => .ok (.describe grammar)
  | .run, some grammar => .ok (.run {
      config := g.config
      grammar := grammar
      constraints := g.constraints
      generations := g.generations
      seed := g.seed
      output := g.output })

end CommandLine

namespace Command

/-- **The command of a command line**, or what is wrong with it. -/
def ofArguments (arguments : List String) : Except UsageError Command :=
  match CommandLine.readArguments none {} arguments with
  | .ok given => given.command
  | .error (.usage e) => .error e
  | .error (.command c) => .ok c

end Command

end GrammarFuzzing
