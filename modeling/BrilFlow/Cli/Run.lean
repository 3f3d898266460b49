import BrilFlow.Cli.Parse
import BrilFlow.Parse.Basic
import BrilFlow.Analysis.Listing
import BrilFlow.Shape.Basic
import BrilFlow.Cfg.Dot
import BrilFlow.Json.Writer

/-! Running a command line: one program from a file or standard input, each function analysed,
drawn or measured on its own. The exit status is 0 when all succeed, 1 when some fail, and 2 when
the command line or the input is refused. -/
namespace BrilFlow.Cli

structure Outcome where
  status : Nat
  stdout : String
  stderr : String
deriving DecidableEq, Repr, Inhabited

inductive OutputFormat where
  | text
  | json
  | dot
deriving DecidableEq, Repr, Inhabited

inductive Task where
  /-- The facts of an analysis for every block. -/
  | analyze (kind : AnalysisKind) (config : EngineConfig)
  /-- The control-flow graph of every function. -/
  | graph
  /-- The shape of every function's graph. -/
  | shape
deriving Inhabited

structure Invocation where
  task : Task
  input : Option String
  source : SourceFormat
  format : OutputFormat

/-- The extension of the last component of a path: what follows its last dot, unless the name
starts with its only dot. -/
def extension? (path : String) : Option String :=
  let name := (path.splitOn "/").getLastD ""
  if name == "." || name == ".." then none
  else
    match name.splitOn "." with
    | [] | [_] => none
    | parts =>
      if parts.length == 2 && parts.head? == some "" then none else parts.getLast?

/-- The syntax a source is read with: `auto` means text for a `.bril` path, JSON otherwise. -/
def resolveFormat (requested : SourceFormat) (path : Option String) : SourceFormat :=
  match requested with
  | .auto => if (path.bind extension?) == some "bril" then .text else .json
  | other => other

namespace Invocation

def ofParsed (p : Parsed) : Invocation :=
  let value := fun (id default : String) => ((p.matched.get? id).bind (·.head?)).getD default
  let source := match value "syntax" "auto" with
    | "json" => SourceFormat.json
    | "text" => .text
    | _ => .auto
  let format := match value "format" (if p.command.name == "cfg" then "dot" else "text") with
    | "json" => OutputFormat.json
    | "dot" => .dot
    | _ => .text
  let seed := match readUnsigned (value "seed" "0") with
    | .ok n => n.toUInt64
    | .error _ => 0
  let order := match value "order" "fifo" with
    | "lifo" => WorkOrder.lifo
    | "shuffled" => .shuffled seed
    | _ => .fifo
  let task := match p.command.name with
    | "cfg" => Task.graph
    | "shape" => .shape
    | _ => .analyze ((AnalysisKind.ofName? (value "analysis" "")).getD .defined)
        { order, dedup := p.matched.has "dedup" }
  { task, input := (p.matched.get? "input").bind (·.head?), source, format }

def refusal? (inv : Invocation) : Option String :=
  match inv.task, inv.format with
  | .graph, _ => none
  | _, .dot => some "`--format dot` is only available for `dflow cfg`"
  | _, _ => none

/-- Where the program comes from, as error messages name it. -/
def context (inv : Invocation) : String :=
  match inv.input with
  | some path => "could not load " ++ path
  | none => "could not load program from stdin"

/-- The program read from the input's text, or why it could not be read. -/
def load (inv : Invocation) (text : Except ReadFailure String) : Except ParseError Program :=
  match text with
  | .error failure => .error (.io (inv.input.getD "<stdin>") failure)
  | .ok source => Program.parse source (resolveFormat inv.source inv.input)

def failureLine (name : String) (e : BlockError) : String :=
  "error: @" ++ name ++ ": " ++ e.message ++ "\n"

/-- Splits per-function results into the failure lines and the successes. -/
def sortResults {α : Type} (results : List (String × Except BlockError α)) :
    String × List (String × α) :=
  results.foldl (fun (acc : String × List (String × α)) (name, r) =>
    match r with
    | .ok x => (acc.1, acc.2 ++ [(name, x)])
    | .error e => (acc.1 ++ failureLine name e, acc.2)) ("", [])

def finished (failures text : String) : Outcome :=
  { status := if failures.isEmpty then 0 else 1, stdout := text, stderr := failures }

def perform (inv : Invocation) (p : Program) : Outcome :=
  match inv.task with
  | .analyze kind config =>
    let (failures, runs) := sortResults (analyzeProgram p kind config)
    let reports := runs.map (·.2.report)
    finished failures <| match inv.format with
      | .json => Json.render (.arr (reports.map FunctionReport.toJson)) ++ "\n"
      | _ => ListingStyle.plain.reports reports
  | .graph =>
    let (failures, graphs) := sortResults (p.functions.map fun f => (f.name, Cfg.ofFunction f))
    finished failures <| match inv.format with
      | .json => Json.render (.arr (graphs.map fun (name, g) => Json.obj [("function", .str name),
          ("successors", .obj ((List.range g.size).map fun i =>
            (g.name i, Json.strs ((g.successors i).map g.name))))])) ++ "\n"
      | _ => String.join (graphs.map fun (name, g) => g.toDot name "  ")
  | .shape =>
    let (failures, graphs) := sortResults (p.functions.map fun f => (f.name, Cfg.ofFunction f))
    let shapes := graphs.map fun (name, g) => (name, Shape.ofCfg g)
    finished failures <| match inv.format with
      | .json => Json.render (.arr (shapes.map fun (name, s) => s.toJson name)) ++ "\n"
      | _ => String.join (shapes.map fun (name, s) => s.render name)

def execute (inv : Invocation) (text : Except ReadFailure String) : Outcome :=
  match inv.refusal? with
  | some message => { status := 2, stdout := "", stderr := "error: " ++ message ++ "\n" }
  | none =>
    match inv.load text with
    | .error e =>
      { status := 2, stdout := "", stderr := "error: " ++ inv.context ++ ": " ++ e.withCause ++ "\n" }
    | .ok p => inv.perform p

end Invocation

def Stop.outcome : Stop → Outcome
  | .help page false => { status := 0, stdout := page, stderr := "" }
  | .help page true => { status := 2, stdout := "", stderr := page }
  | .version => { status := 0, stdout := programName ++ " " ++ programVersion ++ "\n", stderr := "" }
  | .refused e => { status := 2, stdout := "", stderr := e.render }

structure FileStore where
  files : List (String × String) := []
deriving Inhabited

/-- Where a path has led so far while its components are followed. -/
inductive PathPlace where
  /-- The directory holding the files. -/
  | home
  /-- A directory whose contents are unknown: the parent of the home directory, or the root. -/
  | elsewhere
  /-- A file, with its content. -/
  | file (content : String)
  /-- Nothing: a name that does not exist. -/
  | missing

/-- Follows one path component. Below a file nothing can be looked up, not even `.` or an empty
component, so any component after a file fails; below a missing name the path stays missing; a
name looked up in a directory may have at most 255 bytes. -/
def FileStore.step (fs : FileStore) (place : PathPlace) (part : String) :
    Except ReadFailure PathPlace :=
  match place with
  | .file _ => .error .notDirectory
  | .missing => .ok .missing
  | .home =>
    if 255 < part.utf8ByteSize then .error .nameTooLong
    else if part == "" || part == "." then .ok .home
    else if part == ".." then .ok .elsewhere
    else
      match (fs.files.reverse.find? (·.1 == part)).map (·.2) with
      | some content => .ok (.file content)
      | none => .ok .missing
  | .elsewhere =>
    if 255 < part.utf8ByteSize then .error .nameTooLong
    else if part == "" || part == "." || part == ".." then .ok .elsewhere else .ok .missing

/-- Reads a file by path, relative to the home directory: a path of 4096 bytes or more is refused
at once; otherwise each component is followed in turn, a directory at the end cannot be read, and a
path leading nowhere names nothing. -/
def FileStore.read (fs : FileStore) (path : String) : Except ReadFailure String := do
  if 4096 ≤ path.utf8ByteSize then throw .nameTooLong
  let start : PathPlace := if path.startsWith "/" then .elsewhere else .home
  match ← (path.splitOn "/").foldlM fs.step start with
  | .file content => .ok content
  | .home | .elsewhere => .error .isDirectory
  | .missing => .error .notFound

def run (args : List String) (stdin : String) (fs : FileStore) : Outcome :=
  match readCommandLine args with
  | .error stop => stop.outcome
  | .ok parsed =>
    let inv := Invocation.ofParsed parsed
    inv.execute (match inv.input with
      | none => .ok stdin
      | some path => fs.read path)

end BrilFlow.Cli
