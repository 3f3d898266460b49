/-! Why a program could not be read: malformed or ill-fitting JSON, text outside the grammar, a
misplaced or missing literal, or an input that could not be opened. -/
namespace BrilFlow

inductive ReadFailure where
  /-- Nothing exists at the path. -/
  | notFound
  /-- The path names a directory. -/
  | isDirectory
  /-- A path component before the last names a file. -/
  | notDirectory
  /-- The path, or one of its components, is longer than the system allows. -/
  | nameTooLong
deriving DecidableEq, Repr

/-- The system's description of a read failure. -/
def ReadFailure.message : ReadFailure → String
  | .notFound => "No such file or directory (os error 2)"
  | .isDirectory => "Is a directory (os error 21)"
  | .notDirectory => "Not a directory (os error 20)"
  | .nameTooLong => "File name too long (os error 36)"

inductive ParseError where
  /-- JSON text that could not be read; the reader's message with its position. -/
  | json (message : String)
  /-- Text outside the grammar; the report of the furthest failure. -/
  | grammar (report : String)
  /-- A literal on the instruction starting on `line`, which is not a `const` or has one. -/
  | unexpectedLiteral (line : Nat) (op : String) (literal : String)
  /-- A `const` on `line` without a literal. -/
  | missingValue (line : Nat)
  /-- An input file that could not be read. -/
  | io (path : String) (failure : ReadFailure)
deriving DecidableEq, Repr

namespace ParseError

def kind : ParseError → String
  | .json _ => "Json"
  | .grammar _ => "Syntax"
  | .unexpectedLiteral .. => "UnexpectedLiteral"
  | .missingValue _ => "MissingValue"
  | .io .. => "Io"

def message : ParseError → String
  | .json m => "Invalid Bril JSON: " ++ m
  | .grammar r => "Invalid Bril text:\n" ++ r
  | .unexpectedLiteral line op lit =>
    "Line " ++ line.repr ++ ": literal `" ++ lit ++ "` is not valid for `" ++ op ++ "`"
  | .missingValue line => "Line " ++ line.repr ++ ": `const` needs a value"
  | .io path failure => "Failed to read " ++ path ++ ": " ++ failure.message

/-- The message followed by the message of the underlying cause, where there is one: the
reader's message for JSON, the report for text, the system's description for a file. -/
def withCause (e : ParseError) : String :=
  e.message ++
    match e with
    | .json m => ": " ++ m
    | .grammar r => ": " ++ r
    | .io _ failure => ": " ++ failure.message
    | _ => ""

end ParseError
end BrilFlow
