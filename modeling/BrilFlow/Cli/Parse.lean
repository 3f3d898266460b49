import BrilFlow.Cli.Usage
import BrilFlow.Cli.Similar

/-! Reading a command line against the grammar, word by word: subcommands, `--`, long and short
named arguments and positionals; values are checked when their argument is complete, and an unknown
argument is refused with the most similar name as a tip. -/
namespace BrilFlow.Cli

/-- The arguments matched so far, each with its values, in the order they were last given. -/
abbrev Matches := List (String × List String)

namespace Matches

def get? (m : Matches) (id : String) : Option (List String) := (m.find? (·.1 == id)).map (·.2)

def has (m : Matches) (id : String) : Bool := m.any (·.1 == id)

/-- Records an argument with its values, moving it to the end. -/
def put (m : Matches) (id : String) (values : List String) : Matches :=
  m.filter (·.1 != id) ++ [(id, values)]

/-- Records an argument without values unless it is already there. -/
def touch (m : Matches) (id : String) : Matches := if m.has id then m else m ++ [(id, [])]

def ids (m : Matches) : List String := m.map (·.1)

end Matches

inductive Stop where
  /-- Help was asked for (on standard output) or is shown because nothing was given (on standard
  error, as a failure). -/
  | help (page : String) (failed : Bool)
  /-- The version was asked for. -/
  | version
  /-- The command line was refused. -/
  | refused (e : UsageError)
deriving Repr, Inhabited

/-- Where reading stands within one command. -/
structure Scan where
  matched : Matches := []
  /-- The argument whose values are still being collected. -/
  pending : Option (String × List String) := none
  /-- The option that waits for its value. -/
  expecting : Option String := none
  /-- The index of the next positional. -/
  position : Nat := 0
  /-- Whether `--` was seen. -/
  escaped : Bool := false
deriving Inhabited

def decimalDigit? (c : Char) : Option Nat :=
  if c.isDigit then some (c.toNat - '0'.toNat) else none

/-- Reads an unsigned 64-bit number as the standard library does, or says why not. -/
def readUnsigned (s : String) : Except String Nat :=
  let digits := match s.toList with
    | '+' :: rest => rest
    | cs => cs
  if s.isEmpty then .error "cannot parse integer from empty string"
  else if digits.isEmpty then .error "invalid digit found in string"
  else digits.foldlM (fun acc c =>
    match decimalDigit? c with
    | none => .error "invalid digit found in string"
    | some d =>
      let next := acc * 10 + d
      if next < UInt64.size then .ok next else .error "number too large to fit in target type") 0

def checkValue (shown : String) (kind : ValueKind) (value : String) : Except UsageError Unit :=
  match kind with
  | .text => .ok ()
  | .oneOf names =>
    if names.contains value then .ok ()
    else .error (.invalidValue shown value names (mostSimilar? value names))
  | .number =>
    match readUnsigned value with
    | .ok _ => .ok ()
    | .error reason => .error (.badValue shown value reason)
  | .path => if value.isEmpty then .error (.invalidValue shown "" [] none) else .ok ()

inductive ArgRef where
  | named (a : Named)
  | positional (p : Positional)

def Command.find? (c : Command) (id : String) : Option ArgRef :=
  match c.named.find? (·.id == id) with
  | some a => some (.named a)
  | none => (c.positionals.find? (·.id == id)).map .positional

/-- Records an argument with its values, and the command's group when the argument belongs to
it. -/
def Scan.record (c : Command) (s : Scan) (id : String) (values : List String) : Scan :=
  let matched := s.matched.put id values
  { s with matched := if c.group.contains id then matched.touch c.name else matched }

def Scan.argIds (c : Command) (s : Scan) : List String := s.matched.ids.filter (· != c.name)

/-- Completes the pending argument: checks its values and records it. Returns the state after
the attempt and the refusal, if any. An argument with no value is not recorded; one given twice is
dropped; one with a bad value is recorded all the same, so that later usage lines name it. -/
def Scan.settleReport (c : Command) (s : Scan) : Scan × Option UsageError :=
  match s.pending with
  | none => (s, none)
  | some (id, values) =>
    let s := { s with pending := none }
    let (shown, kind) := match c.find? id with
      | some (.named a) => (a.display, a.values)
      | some (.positional p) => (p.display, p.values)
      | none => ("", ValueKind.text)
    if values.isEmpty then
      (s, some (.invalidValue shown "" (match kind with | .oneOf names => names | _ => []) none))
    else if s.matched.has id then
      ({ s with matched := s.matched.filter (·.1 != id) }, some (.repeated shown c.usage))
    else
      let recorded := s.record c id values
      match values.mapM (checkValue shown kind) with
      | .error e => (recorded, some e)
      | .ok _ => (recorded, none)

def Scan.settle (c : Command) (s : Scan) : Except Stop Scan :=
  match s.settleReport c with
  | (s, none) => .ok s
  | (_, some e) => .error (.refused e)

/-- Completes the pending argument; a refusal is dropped, as when another error is reported. -/
def Scan.settleQuietly (c : Command) (s : Scan) : Scan := (s.settleReport c).1

def Scan.apply (c : Command) (a : Named) (s : Scan) : Except Stop Scan := do
  let s ← s.settle c
  match a.action with
  | .help => throw (.help c.helpPage false)
  | .version => throw .version
  | .count =>
    let n := ((s.matched.get? a.id).bind (·.head?) |>.bind String.toNat?).getD 0
    return { s.record c a.id [toString (n + 1)] with expecting := none }
  | .setTrue =>
    if s.matched.has a.id then throw (.refused (.repeated a.display c.usage))
    return { s.record c a.id ["true"] with expecting := none }
  | .set =>
    return { s with pending := some (a.id, []), expecting := none }

/-- Starts a named argument taking a value: with the value attached, or waiting for it. -/
def Scan.startOption (c : Command) (a : Named) (attached : Option String) (s : Scan) :
    Except Stop Scan := do
  let s ← s.settle c
  match attached with
  | some v => Scan.settle c { s with pending := some (a.id, [v]), expecting := none }
  | none => return { s with pending := some (a.id, []), expecting := some a.id }

/-- The refusal of an unknown `--name`, with the most similar name as a tip. -/
def unknownLong (c : Command) (name : String) (rest : List String) (s : Scan) : UsageError :=
  let s := s.settleQuietly c
  let here := mostSimilar? name (c.named.map (·.long))
  let elsewhere : Option (String × String) :=
    if here.isSome || !c.hasSubcommands then none
    else
      let found := subcommands.filterMap fun sub =>
        match mostSimilar? name (sub.named.map (·.long)), rest.idxOf? sub.name with
        | some flag, some at_ => some (at_, sub.name ++ " --" ++ flag)
        | _, _ => none
      (found.foldl (fun best x => match best with
        | some b => if x.1 < b.1 then some x else best
        | none => some x) none).map fun x => (x.2, x.2)
  let matched : Matches := match here with
    | some long => match c.named.find? (fun a => a.long == long) with
      | some a => s.matched.touch a.id
      | none => s.matched
    | none => s.matched
  let valueTip := here.isNone && !s.escaped && !c.positionals.isEmpty
  .unknownArgument ("--" ++ name) (here.map ("--" ++ ·)) (elsewhere.map (·.1)) valueTip
    (c.usageWith (matched.ids.filter (· != c.name)))

def looksNamed (w : String) : Bool := w.startsWith "-" && w != "-" && w != "--"

def misplaced (c : Command) (word : String) (s : Scan) : UsageError :=
  let valueTip := !s.escaped && !c.positionals.isEmpty && looksNamed word
  if s.escaped && c.hasSubcommands && (subcommand? word).isSome then
    .escapedSubcommand word c.usage
  else if c.hasSubcommands then
    let near := similar word (subcommands.map (·.name))
    .unknownSubcommand word near c.usage true
  else .unknownArgument word none none valueTip c.usage

def helpFor (names : List String) : Stop :=
  let found : Except Stop Command := names.foldlM (fun (c : Command) name =>
    let next := if c.hasSubcommands then subcommand? name else none
    match next with
    | some sub => Except.ok sub
    | none => Except.error (Stop.refused (.unknownSubcommand name [] c.usage
        (c.hasSubcommands || c.named.any (·.action == .help))))) topCommand
  match found with
  | .ok c => .help c.helpPage false
  | .error stop => stop

def Scan.shorts (c : Command) : List Char → Scan → Except Stop Scan
  | [], s => .ok s
  | ch :: more, s =>
    match c.named.find? (·.short == some ch) with
    | some a =>
      if a.action == .set then
        let attached := String.ofList more
        let attached := if attached.startsWith "=" then attached.drop 1 |>.toString else attached
        s.startOption c a (if attached.isEmpty then none else some attached)
      else do
        let s ← s.apply c a
        Scan.shorts c more s
    | none =>
      let s := s.settleQuietly c
      .error (.refused (.unknownArgument ("-" ++ ch.toString) none none
        (!s.escaped && !c.positionals.isEmpty) c.usage))

def Scan.word (c : Command) (w : String) (rest : List String) (s : Scan) : Except Stop Scan :=
  if !s.escaped && w == "--" then .ok { s with escaped := true }
  else if !s.escaped && w.startsWith "--" then
    let body := (w.drop 2).toString
    let (name, attached) := match body.splitOn "=" with
      | [n] => (n, none)
      | n :: vs => (n, some ("=".intercalate vs))
      | [] => (body, none)
    match c.named.find? (·.long == name) with
    | some a =>
      if a.action == .set then s.startOption c a attached
      else
        match attached with
        | some v =>
          let used := (s.matched.ids.filter fun id =>
            !(c.positionals.any fun p => p.id == id && p.required)) ++ [a.id]
          .error (.refused (.unexpectedValue a.display v (c.usageWith used)))
        | none => s.apply c a
    | none => .error (.refused (unknownLong c name rest s))
  else if !s.escaped && looksNamed w then Scan.shorts c (w.drop 1).toString.toList s
  else if !s.escaped && s.expecting.isSome then
    match s.pending with
    | some (id, values) => .ok { s with pending := some (id, values ++ [w]), expecting := none }
    | none => .ok { s with expecting := none }
  else
    match c.positionals[s.position]? with
    | some p => do
      let s ← s.settle c
      return { s with pending := some (p.id, [w]), position := s.position + 1, expecting := none }
    | none => .error (.refused (misplaced c w (s.settleQuietly c)))

def Scan.words (c : Command) : List String → Scan → Except Stop (Scan × Option (Command × List String))
  | [], s => .ok (s, none)
  | w :: rest, s =>
    match (if !s.escaped && c.hasSubcommands then subcommand? w else none) with
    | some sub =>
      if sub.name == "help" then .error (helpFor rest)
      else .ok (s, some (sub, rest))
    | none => do
      let s ← s.word c w rest
      Scan.words c rest s

def Scan.finish (c : Command) (s : Scan) (hasSubcommand : Bool) : Except Stop Matches := do
  let s ← s.settle c
  if c.hasSubcommands && !hasSubcommand then
    if s.matched.isEmpty then throw (.help c.helpPage true)
    throw (.refused (.missingSubcommand c.name (subcommands.map (·.name)) c.usage))
  let missing := c.positionals.filter fun p => p.required && !s.matched.has p.id
  if !missing.isEmpty then
    throw (.refused (.missingArguments (missing.map (·.display))
      (c.usageWith (s.argIds c ++ missing.map (·.id)))))
  return s.matched

structure Parsed where
  top : Matches
  command : Command
  matched : Matches
deriving Inhabited

def readCommandLine (args : List String) : Except Stop Parsed := do
  let (s, sub) ← Scan.words topCommand args {}
  match sub with
  | none =>
    let _ ← s.finish topCommand false
    throw (.help topCommand.helpPage true)
  | some (c, rest) =>
    let s ← s.settle topCommand
    let (t, _) ← Scan.words c rest {}
    let matched ← t.finish c false
    let top ← s.finish topCommand true
    return { top, command := c, matched }

end BrilFlow.Cli
