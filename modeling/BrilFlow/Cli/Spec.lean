/-! The command-line grammar: commands with positional and named arguments (switches, counters,
options, help and version), and the program's commands `analyze`, `cfg`, `shape` and `help`. -/
namespace BrilFlow.Cli

inductive Action where
  /-- A switch: set once. -/
  | setTrue
  /-- A counter: each use adds one. -/
  | count
  /-- An option taking one value. -/
  | set
  /-- Prints help. -/
  | help
  /-- Prints the version. -/
  | version
deriving DecidableEq, Repr, Inhabited

inductive ValueKind where
  /-- Any text. -/
  | text
  /-- One of the listed names. -/
  | oneOf (names : List String)
  /-- An unsigned 64-bit number. -/
  | number
  /-- A file path: any text but the empty one. -/
  | path
deriving DecidableEq, Repr, Inhabited

structure Named where
  id : String
  long : String
  short : Option Char := none
  action : Action
  valueName : String := ""
  values : ValueKind := .text
  defaultValue : Option String := none
  about : String := ""
  /-- Position in the help listing; ties keep definition order. -/
  rank : Nat := 0
deriving Repr, Inhabited

structure Positional where
  id : String
  valueName : String
  required : Bool := false
  values : ValueKind := .text
  /-- Takes every remaining value. -/
  many : Bool := false
  about : String := ""
deriving Repr, Inhabited

/-- A command: its path for usage lines, its arguments in definition order. -/
structure Command where
  name : String
  /-- The program name followed by the subcommand names leading here. -/
  path : String
  about : String
  positionals : List Positional := []
  named : List Named := []
  /-- Whether it leads to subcommands (listed separately). -/
  hasSubcommands : Bool := false
  /-- The arguments the command declares itself (not those every command accepts), by id, in
  order. Once one of them is given, the group counts as given too, under the command's name. -/
  group : List String := []
deriving Repr, Inhabited

def programName : String := "dflow"

def programVersion : String := "0.1.0"

/-- The verbosity counter, accepted everywhere. -/
def verboseArg : Named :=
  { id := "verbose", long := "verbose", short := some 'v', action := .count,
    about := "Log more to stderr (-v info, -vv debug, -vvv trace)", rank := 0 }

/-- The switch that turns colours off, accepted everywhere. -/
def noColorArg : Named := { id := "no_color", long := "no-color", action := .setTrue, rank := 1 }

def helpArg : Named :=
  { id := "help", long := "help", short := some 'h', action := .help, about := "Print help",
    rank := 1000 }

def versionArg : Named :=
  { id := "version", long := "version", short := some 'V', action := .version,
    about := "Print version", rank := 1000 }

def sourceFormatArg : Named :=
  { id := "syntax", long := "syntax", action := .set, valueName := "SYNTAX",
    values := .oneOf ["auto", "json", "text"], defaultValue := some "auto", rank := 0 }

def formatArg (default : String) (rank : Nat) : Named :=
  { id := "format", long := "format", action := .set, valueName := "FORMAT",
    values := .oneOf ["text", "json", "dot"], defaultValue := some default, rank }

def inputArg (about : String) : Positional :=
  { id := "input", valueName := "INPUT", values := .path, about }

def analysisArg : Positional :=
  { id := "analysis", valueName := "ANALYSIS", required := true,
    values := .oneOf ["defined", "live", "cprop", "rdefs", "available"] }

def topCommand : Command :=
  { name := programName, path := programName,
    about := "Worklist dataflow analyses and CFG inspection for Bril programs",
    named := [verboseArg, noColorArg, helpArg, versionArg], hasSubcommands := true,
    group := ["verbose", "no_color"] }

def analyzeCommand : Command :=
  { name := "analyze", path := programName ++ " analyze",
    about := "Print IN/OUT facts per block for every function",
    positionals := [analysisArg, inputArg "Program to read; stdin when omitted"],
    named := [sourceFormatArg, formatArg "text" 1,
      { id := "order", long := "order", action := .set, valueName := "ORDER",
        values := .oneOf ["fifo", "lifo", "shuffled"], defaultValue := some "fifo", rank := 2 },
      { id := "seed", long := "seed", action := .set, valueName := "SEED", values := .number,
        defaultValue := some "0", about := "Seed for `--order shuffled`", rank := 3 },
      { id := "dedup", long := "dedup", action := .setTrue,
        about := "Do not queue a block that is already waiting", rank := 4 },
      verboseArg, noColorArg, helpArg],
    group := ["analysis", "input", "syntax", "format", "order", "seed", "dedup"] }

def cfgCommand : Command :=
  { name := "cfg", path := programName ++ " cfg",
    about := "Print the control-flow graph of every function",
    positionals := [inputArg ""],
    named := [sourceFormatArg, formatArg "dot" 1, verboseArg, noColorArg, helpArg],
    group := ["input", "syntax", "format"] }

def shapeCommand : Command :=
  { name := "shape", path := programName ++ " shape",
    about := "Print path lengths, reverse postorder, back edges and reducibility",
    positionals := [inputArg ""],
    named := [sourceFormatArg, formatArg "text" 1, verboseArg, noColorArg, helpArg],
    group := ["input", "syntax", "format"] }

def commandNamesArg : Positional :=
  { id := "subcommand", valueName := "COMMAND", many := true,
    about := "Print help for the subcommand(s)" }

/-- The `help` command, which prints the help of the commands it names. -/
def helpCommand : Command :=
  { name := "help", path := programName ++ " help",
    about := "Print this message or the help of the given subcommand(s)",
    positionals := [commandNamesArg] }

def subcommands : List Command := [analyzeCommand, cfgCommand, shapeCommand, helpCommand]

def subcommand? (name : String) : Option Command := subcommands.find? (·.name == name)

end BrilFlow.Cli
