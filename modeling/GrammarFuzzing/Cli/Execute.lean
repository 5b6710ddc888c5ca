import GrammarFuzzing.Cli.Arguments
import GrammarFuzzing.Config.Reader
import GrammarFuzzing.Constraint.Spec
import GrammarFuzzing.Evolution.Run
import GrammarFuzzing.Grammar.Document
import GrammarFuzzing.Grammar.Spec
import GrammarFuzzing.Text.Ascii

/-!
# What commands do

A command is a function of the files that it reads: `GrammarFuzzing.Command.files` names them, and
`GrammarFuzzing.Command.execute` takes their texts and answers with a `GrammarFuzzing.Outcome`,
which says what is to be printed, which files are to be written, and how the program exits. Only a
command that did all it had to prints or writes anything.

`GrammarFuzzing.Directory.execute` carries out a whole command line among the files of one
directory.
-/

namespace GrammarFuzzing

/-- **Why a command failed.** -/
inductive CommandError
  | usage (error : UsageError)
  | config (error : ConfigError)
  /-- A file could not be read. -/
  | unreadable (path : String)
  /-- A file does not hold what it should. -/
  | malformed (path : String)
  | grammar (error : GrammarError)
  | engine (error : EngineError)
  /-- The solutions could not be written. -/
  | unwritable (path : String)

namespace CommandError

/-- The error in words. -/
def message : CommandError → String
  | .usage e => e.message
  | .config e => e.message
  | .unreadable path => "Failed to read " ++ quote path
  | .malformed path => "Invalid file " ++ quote path
  | .grammar e => e.message
  | .engine e => e.message
  | .unwritable path => "Failed to write to " ++ quote path

/-- How the program exits: wrong usage is told from all else that goes wrong. -/
def exitCode : CommandError → Nat
  | .usage _ => 2
  | _ => 1

end CommandError

/-- Files to be written to a directory. -/
structure SavedFiles where
  directory : String
  files : List (String × Bytes)

/-- **What comes of a command** that does not fail. -/
structure Outcome where
  /-- The text to be printed. -/
  output : String := ""
  /-- The files to be written, if there is a directory for them. -/
  saved : Option SavedFiles := none

namespace Command

/-- The file of the settings where none is named. -/
def defaultConfig : String :=
  "braid.toml"

/-- How deeply the values in a file may be nested. -/
def depthLimit : Nat := 127

/-- The usage of the commands, line by line. -/
def usageLines : CommandLevel → List String
  | .top => ["Usage: [OPTIONS] <COMMAND>", "", "Commands:",
      "  run   Evolve inputs that satisfy the constraints",
      "  show  Print a grammar file back in BNF-style notation",
      "  help  Print this message or the help of the given command", "", "Options:",
      "  -v, --verbose  Log more",
      "  -h, --help     Print help",
      "  -V, --version  Print version"]
  | .run => ["Evolve inputs that satisfy the constraints", "",
      "Usage: run [OPTIONS] --grammar <GRAMMAR>", "", "Options:",
      "  -c, --config <CONFIG>            TOML settings",
      "  -g, --grammar <GRAMMAR>          JSON grammar description",
      "      --constraints <CONSTRAINTS>  JSON list of constraints",
      "      --generations <GENERATIONS>  Greatest number of generations",
      "      --seed <SEED>                Seed of all random choices",
      "  -o, --output <OUTPUT>            Write solutions here instead of printing them",
      "  -v, --verbose                    Log more",
      "  -h, --help                       Print help"]
  | .describe => ["Print a grammar file back in BNF-style notation", "",
      "Usage: show [OPTIONS] --grammar <GRAMMAR>", "", "Options:",
      "  -g, --grammar <GRAMMAR>  JSON grammar description",
      "  -v, --verbose            Log more",
      "  -h, --help               Print help"]

/-- The usage of the commands. -/
def usage (level : CommandLevel) : String :=
  String.join ((usageLines level).map fun line => line ++ "\n")

/-- **The files that a command may read.** -/
def files : Command → List String
  | .run o => o.config.getD defaultConfig :: o.grammar :: o.constraints.toList
  | .describe grammar => [grammar]
  | .help _ => []
  | .version => []

/-- The texts of files; those that cannot be read are missing. -/
abbrev Texts := String → Option String

/-- The settings of a run. Without a file for them they are the usual ones. -/
def loadConfig (texts : Texts) : Option String → Except CommandError Config
  | some path => (Config.load path (texts path)).mapError .config
  | none =>
    match texts defaultConfig with
    | some text => (Config.load defaultConfig (some text)).mapError .config
    | none => .ok {}

/-- The JSON value in a file. -/
def loadJson (texts : Texts) (path : String) : Except CommandError Json :=
  match texts path with
  | none => .error (.unreadable path)
  | some text => (Json.parse? depthLimit text).elim (.error (.malformed path)) .ok

/-- The grammar in a file. -/
def loadGrammar (texts : Texts) (path : String) : Except CommandError Grammar := do
  match Document.ofJson? (← loadJson texts path) with
  | none => throw (.malformed path)
  | some doc => doc.toGrammar.mapError .grammar

/-- The constraints in a file, for a grammar. -/
def loadConstraints (texts : Texts) (g : Grammar) (path : String) :
    Except CommandError (List Constraint) := do
  match (← loadJson texts path).list? ConstraintSpec.ofJson? with
  | none => throw (.malformed path)
  | some specs => (specs.mapM fun (s : ConstraintSpec) => s.build g).mapError .grammar

/-- The line for a solution. Bytes that are no text are shown in ASCII. -/
def solutionLine (t : Tree) : String :=
  (if t.containsBytes then escapeBytes t.toBytes else t.text) ++ "\n"

/-- The settings of a run with those given on the command line. -/
def RunOptions.apply (o : RunOptions) (c : Config) : Config :=
  { c with
    evolution := { c.evolution with
      maxGenerations := o.generations.getD c.evolution.maxGenerations
      seed := o.seed.or c.evolution.seed } }

/-- **Runs an evolution.** Where no seed is given, it is `entropy`. -/
def evolve (texts : Texts) (entropy : Nat) (o : RunOptions) : Except CommandError Outcome := do
  let config := RunOptions.apply o (← loadConfig texts o.config)
  config.validate.mapError .config
  let g ← loadGrammar texts o.grammar
  let constraints ← match o.constraints with
    | some path => loadConstraints texts g path
    | none => pure []
  let config := { config with
    evolution := { config.evolution with seed := some (config.evolution.seed.getD entropy) } }
  let engine ← (Engine.standard g constraints config .constant).mapError .engine
  let solutions ← engine.run.1.mapError .engine
  match o.output with
  | some directory => return { saved := some ⟨directory, solutionFiles solutions⟩ }
  | none => return { output := String.join (solutions.map solutionLine) }

/-- **Carries out a command.** -/
def execute (texts : Texts) (entropy : Nat) : Command → Except CommandError Outcome
  | .run o => evolve texts entropy o
  | .describe grammar => do return { output := (← loadGrammar texts grammar).toSpec }
  | .help level => .ok { output := usage level }
  | .version => .ok { output := "0.1.0\n" }

end Command

/-! ### A whole directory -/

/-- The names on a path, without those that stay where they are. -/
def pathNames (path : String) : List String :=
  (path.splitOn "/").filter fun name => name != "" && name != "."

/-- **The files of a directory**, with their texts, by their paths within it. -/
abbrev Directory := Dictionary String String

namespace Directory

/-- The text of a file. -/
def text? (d : Directory) (path : String) : Option String :=
  (List.find? (fun f => pathNames f.1 = pathNames path && !path.endsWith "/") d).map (·.2)

/-- Whether a path is free for a directory: no file is on the way. -/
def admits (d : Directory) (path : String) : Bool :=
  List.all d fun f => !(pathNames f.1).isPrefixOf (pathNames path)

/-- **Carries out a command line** in the directory. Without a seed, the seed is zero. -/
def execute (d : Directory) (arguments : List String) : Except CommandError Outcome := do
  let command ← (Command.ofArguments arguments).mapError .usage
  let outcome ← command.execute d.text? 0
  match outcome.saved with
  | some saved =>
    if d.admits saved.directory then return outcome else throw (.unwritable saved.directory)
  | none => return outcome

end Directory

end GrammarFuzzing
