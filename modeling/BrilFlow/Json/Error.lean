import BrilFlow.Json.Writer
import BrilFlow.Unicode.GraphemeExtend
import BrilFlow.Unicode.Printable

/-! Why reading JSON stopped, and where: the byte index reported as line and column. A schema's type
error gets the index the enclosing container reached when it tried to close. -/
namespace BrilFlow.Json

open BrilFlow.Decimal

inductive Unexpected where
  | bool (b : Bool)
  | unsigned (n : Nat)
  | signed (n : Int)
  | float (bits : UInt64)
  | str (s : String)
  | unit
  | seq
  | map

inductive ErrorCode where
  | eofWhileParsingList
  | eofWhileParsingObject
  | eofWhileParsingString
  | eofWhileParsingValue
  | expectedColon
  | expectedListCommaOrEnd
  | expectedObjectCommaOrEnd
  | expectedSomeIdent
  | expectedSomeValue
  | invalidEscape
  | invalidNumber
  | numberOutOfRange
  | controlCharacterInString
  | keyMustBeAString
  | loneLeadingSurrogate
  | trailingComma
  | trailingCharacters
  | unexpectedEndOfHexEscape
  | recursionLimitExceeded
  | invalidType (found : Unexpected) (expected : String)
  | invalidLength (n : Nat) (expected : String)
  | missingField (name : String)
  | duplicateField (name : String)
  | noVariant (enumName : String)

/-- A reading error and the byte index it is reported at, once known. -/
structure Error where
  code : ErrorCode
  index : Option Nat

/-- Floats in messages are written as in JSON text, with the words of the standard library for
the non-finite values. -/
def messageFloatLayout : FloatLayout :=
  { floatLayout with infinity := "inf", negInfinity := "-inf", nan := "NaN" }

def hexText (n : Nat) : String :=
  String.ofList ((Nat.toDigits 16 n).map Char.toLower)

/-- One character inside a quoted message string. The quote, the backslash and four control
characters have short escapes; a grapheme extender (which would otherwise join the character before
it) and a character that is not printable are written by code point, as `\u{301}`; every
other character stands as it is. -/
def messageChar (c : Char) : String :=
  if c = '"' then "\\\""
  else if c = '\\' then "\\\\"
  else if c = '\n' then "\\n"
  else if c = '\r' then "\\r"
  else if c = '\t' then "\\t"
  else if c.toNat = 0 then "\\0"
  else if !Unicode.isGraphemeExtend c && Unicode.isPrintable c then c.toString
  else "\\u\x7b" ++ hexText c.toNat ++ "\x7d"

def messageQuote (s : String) : String :=
  "\"" ++ String.join (s.toList.map messageChar) ++ "\""

def Unexpected.describe : Unexpected → String
  | .bool b => "boolean `" ++ (if b then "true" else "false") ++ "`"
  | .unsigned n => "integer `" ++ n.repr ++ "`"
  | .signed n => "integer `" ++ toString n ++ "`"
  | .float bits => "floating point `" ++ messageFloatLayout.render bits ++ "`"
  | .str s => "string " ++ messageQuote s
  | .unit => "null"
  | .seq => "sequence"
  | .map => "map"

def ErrorCode.message : ErrorCode → String
  | .eofWhileParsingList => "EOF while parsing a list"
  | .eofWhileParsingObject => "EOF while parsing an object"
  | .eofWhileParsingString => "EOF while parsing a string"
  | .eofWhileParsingValue => "EOF while parsing a value"
  | .expectedColon => "expected `:`"
  | .expectedListCommaOrEnd => "expected `,` or `]`"
  | .expectedObjectCommaOrEnd => "expected `,` or `\x7d`"
  | .expectedSomeIdent => "expected ident"
  | .expectedSomeValue => "expected value"
  | .invalidEscape => "invalid escape"
  | .invalidNumber => "invalid number"
  | .numberOutOfRange => "number out of range"
  | .controlCharacterInString => "control character (\\u0000-\\u001F) found while parsing a string"
  | .keyMustBeAString => "key must be a string"
  | .loneLeadingSurrogate => "lone leading surrogate in hex escape"
  | .trailingComma => "trailing comma"
  | .trailingCharacters => "trailing characters"
  | .unexpectedEndOfHexEscape => "unexpected end of hex escape"
  | .recursionLimitExceeded => "recursion limit exceeded"
  | .invalidType found expected => "invalid type: " ++ found.describe ++ ", expected " ++ expected
  | .invalidLength n expected => "invalid length " ++ n.repr ++ ", expected " ++ expected
  | .missingField name => "missing field `" ++ name ++ "`"
  | .duplicateField name => "duplicate field `" ++ name ++ "`"
  | .noVariant enumName => "data did not match any variant of untagged enum " ++ enumName

/-- Line and column of a byte index: newlines before it, and bytes since the last one. -/
def lineColumn (bytes : ByteArray) (index : Nat) : Nat × Nat :=
  (bytes.toList.take index).foldl
    (fun (acc : Nat × Nat) (b : UInt8) => if b = 10 then (acc.1 + 1, 0) else (acc.1, acc.2 + 1))
    (1, 0)

def Error.message (bytes : ByteArray) (e : Error) : String :=
  match e.index with
  | some i =>
    let (line, column) := lineColumn bytes i
    e.code.message ++ " at line " ++ line.repr ++ " column " ++ column.repr
  | none => e.code.message

end BrilFlow.Json
