import BrilFlow.Cli.Spec

/-! Usage lines, help pages and usage errors: how arguments are shown, which are listed in the usage
line of an error, and the aligned columns of a help page. -/
namespace BrilFlow.Cli

def Named.display (a : Named) : String :=
  "--" ++ a.long ++
    match a.action with
    | .set => " <" ++ a.valueName ++ ">"
    | .count => "..."
    | _ => ""

/-- A positional as shown, required or not. -/
def Positional.displayAs (p : Positional) (required : Bool) : String :=
  (if required then "<" ++ p.valueName ++ ">" else "[" ++ p.valueName ++ "]") ++
    (if p.many then "..." else "")

def Positional.display (p : Positional) : String := p.displayAs p.required

def Command.usage (c : Command) : String :=
  c.path ++ (if c.named.isEmpty then "" else " [OPTIONS]") ++
    String.join (c.positionals.map (" " ++ ·.display)) ++
    (if c.hasSubcommands then " <COMMAND>" else "")

/-- Keeps the first of equal strings. -/
def firstOccurrences (xs : List String) : List String :=
  xs.foldl (fun acc x => if acc.contains x then acc else acc ++ [x]) []

/-- The usage line of an error that names the arguments `used`, by id. When `used` names the
command's group (by the command's name), the group is shown as one alternative of all its members,
after the named arguments, and its members are not shown on their own. -/
def Command.usageWith (c : Command) (used : List String) : String :=
  if used.isEmpty then c.usage
  else
    let grouped := !c.group.isEmpty && used.contains c.name
    let members := if grouped then c.group else []
    let named := firstOccurrences ((used.filterMap fun id =>
      if members.contains id then none else (c.named.find? (·.id == id)).map (·.display)))
    let memberText := c.group.filterMap fun id =>
      match c.named.find? (·.id == id) with
      | some a => some a.display
      | none => (c.positionals.find? (·.id == id)).map (·.valueName)
    let groupText := if grouped then ["<" ++ "|".intercalate memberText ++ ">"] else []
    let positionals := (c.positionals.filter fun p => !members.contains p.id).map fun p =>
      p.displayAs (p.required || used.contains p.id)
    c.path ++ String.join ((named ++ groupText ++ positionals).map (" " ++ ·)) ++
      (if c.hasSubcommands then " <COMMAND>" else "")

def valueList (title : String) (names : List String) : String :=
  "[" ++ title ++ ": " ++ ", ".intercalate names ++ "]"

/-- The notes after an argument's description: its default and its possible values. -/
def notes (about : String) (takesValue : Bool) (default : Option String) (values : ValueKind) :
    String :=
  let parts := (match default with
      | some d => if takesValue then ["[default: " ++ d ++ "]"] else []
      | none => []) ++
    (match values with
      | .oneOf names => [valueList "possible values" names]
      | _ => [])
  " ".intercalate ((if about.isEmpty then [] else [about]) ++ parts)

def padTo (width : Nat) (s : String) : String :=
  s ++ String.ofList (List.replicate (width - s.length) ' ')

/-- Inserts an argument after every argument of no higher rank. -/
def insertByRank (a : Named) : List Named → List Named
  | [] => [a]
  | b :: bs => if a.rank < b.rank then a :: b :: bs else b :: insertByRank a bs

def Command.helpPage (c : Command) : String :=
  let commands :=
    if c.hasSubcommands then
      let width := (subcommands.map (·.name.length)).foldl max 0
      ["Commands:\n" ++ "\n".intercalate (subcommands.map fun s => "  " ++ padTo (width + 2) s.name ++ s.about)]
    else []
  let positionals :=
    if c.positionals.isEmpty then []
    else
      let width := (c.positionals.map (·.display.length)).foldl max 0
      ["Arguments:\n" ++ "\n".intercalate (c.positionals.map fun p =>
        "  " ++ padTo (width + 2) p.display ++ notes p.about true none p.values)]
  let options :=
    if c.named.isEmpty then []
    else
      let width := (c.named.map (·.display.length + 4)).foldl max 0
      let sorted := c.named.foldl (fun acc a => insertByRank a acc) []
      ["Options:\n" ++ "\n".intercalate (sorted.map fun a =>
        let left := (match a.short with | some s => "-" ++ s.toString ++ ", " | none => "    ") ++ a.display
        "  " ++ padTo (width + 2) left ++ notes a.about (a.action == .set) a.defaultValue a.values)]
  c.about ++ "\n\nUsage: " ++ c.usage ++ "\n\n" ++ "\n\n".intercalate (commands ++ positionals ++ options) ++ "\n"

inductive UsageError where
  /-- An argument that fits nowhere, with a similar argument, a subcommand that has it, and
  whether to suggest `--` to pass it as a value. -/
  | unknownArgument (arg : String) (similar : Option String) (inSubcommand : Option String)
      (valueTip : Bool) (usage : String)
  /-- A word where a subcommand was expected, with similar subcommand names. -/
  | unknownSubcommand (word : String) (similar : List String) (usage : String) (helpHint : Bool)
  /-- A subcommand name after `--`. -/
  | escapedSubcommand (name : String) (usage : String)
  /-- A value that is not one of the possible values (the empty value: none supplied), with the
  most similar possible value. -/
  | invalidValue (arg value : String) (possible : List String) (similar : Option String)
  /-- A value that does not parse, with the reason. -/
  | badValue (arg value reason : String)
  /-- A value attached to an argument that takes none. -/
  | unexpectedValue (arg value : String) (usage : String)
  /-- An argument given twice. -/
  | repeated (arg : String) (usage : String)
  /-- Required arguments that are missing. -/
  | missingArguments (args : List String) (usage : String)
  /-- A command that needs a subcommand got none. -/
  | missingSubcommand (parent : String) (names : List String) (usage : String)
deriving Repr, Inhabited

namespace UsageError

/-- The first line of the message, with the list that belongs to it. -/
def headline : UsageError → String
  | .unknownArgument arg .. => "unexpected argument '" ++ arg ++ "' found"
  | .unknownSubcommand word .. => "unrecognized subcommand '" ++ word ++ "'"
  | .escapedSubcommand .. => "unexpected argument '--' found"
  | .invalidValue arg value possible _ =>
    (if value.isEmpty then "a value is required for '" ++ arg ++ "' but none was supplied"
     else "invalid value '" ++ value ++ "' for '" ++ arg ++ "'") ++
    (if possible.isEmpty then "" else "\n  " ++ valueList "possible values" possible)
  | .badValue arg value reason => "invalid value '" ++ value ++ "' for '" ++ arg ++ "': " ++ reason
  | .unexpectedValue arg value _ =>
    "unexpected value '" ++ value ++ "' for '" ++ arg ++ "' found; no more were expected"
  | .repeated arg _ => "the argument '" ++ arg ++ "' cannot be used multiple times"
  | .missingArguments args _ =>
    "the following required arguments were not provided:" ++ String.join (args.map ("\n  " ++ ·))
  | .missingSubcommand parent names _ =>
    "'" ++ parent ++ "' requires a subcommand but one was not provided" ++
      "\n  " ++ valueList "subcommands" names

def quoted (names : List String) : String := ", ".intercalate (names.map fun n => "'" ++ n ++ "'")

def similarTip : UsageError → Option String
  | .unknownArgument _ (some s) _ _ _ => some ("a similar argument exists: '" ++ s ++ "'")
  | .unknownSubcommand _ [s] _ _ => some ("a similar subcommand exists: '" ++ s ++ "'")
  | .unknownSubcommand _ (s :: t :: rest) _ _ =>
    some ("some similar subcommands exist: " ++ quoted (s :: t :: rest))
  | .invalidValue _ _ _ (some s) => some ("a similar value exists: '" ++ s ++ "'")
  | _ => none

def tips : UsageError → List String
  | .unknownArgument arg _ sub valueTip _ =>
    (if valueTip then ["to pass '" ++ arg ++ "' as a value, use '-- " ++ arg ++ "'"] else []) ++
    (match sub with
      | some s => ["'" ++ s ++ "' exists"]
      | none => [])
  | .escapedSubcommand name _ =>
    ["subcommand '" ++ name ++ "' exists; to use it, remove the '--' before it"]
  | _ => []

def usage? : UsageError → Option String
  | .unknownArgument _ _ _ _ u | .unknownSubcommand _ _ u _ | .escapedSubcommand _ u
  | .unexpectedValue _ _ u | .repeated _ u | .missingArguments _ u | .missingSubcommand _ _ u => some u
  | _ => none

/-- Whether the error ends by pointing at `--help`. -/
def helpHint : UsageError → Bool
  | .unknownSubcommand _ _ _ h => h
  | _ => true

def render (e : UsageError) : String :=
  let similar := match e.similarTip with
    | some t => "\n\n  tip: " ++ t
    | none => ""
  let tips := e.tips
  let others := (if tips.isEmpty || !similar.isEmpty then "" else "\n") ++
    String.join (tips.map ("\n  tip: " ++ ·))
  "error: " ++ e.headline ++ similar ++ others ++
    (match e.usage? with
      | some u => "\n\nUsage: " ++ u
      | none => "") ++
    (if e.helpHint then "\n\nFor more information, try '--help'.\n" else "\n")

end UsageError
end BrilFlow.Cli
