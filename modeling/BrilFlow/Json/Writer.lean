import BrilFlow.Json.Value
import BrilFlow.Decimal.Layout

/-! Writing JSON text: strings escape quotes, backslashes and control characters; floats take the
fewest digits that read back; the compact form has no blanks, the pretty form indents two spaces. -/
namespace BrilFlow.Json

open BrilFlow.Decimal

/-- The number format of JSON text: positional from `1e-5` up to below `1e16` with at least one
fractional digit, otherwise scientific with a signed exponent (`1e-6`, `1e+16`); of two equally
near shortest candidates the even one is taken. -/
def floatLayout : FloatLayout :=
  { positionalAbove := some (-5), positionalUpTo := some 16, pointZero := true,
    exponentPlus := true, ties := .toEven,
    infinity := "null", negInfinity := "null", nan := "null" }

def hexDigit (n : Nat) : Char :=
  if n < 10 then Char.ofNat (48 + n) else Char.ofNat (87 + n)

/-- The escaped form of one character inside a JSON string. -/
def escapeChar (c : Char) : List Char :=
  if c = '"' then ['\\', '"']
  else if c = '\\' then ['\\', '\\']
  else if c = '\n' then ['\\', 'n']
  else if c = '\r' then ['\\', 'r']
  else if c = '\t' then ['\\', 't']
  else if c.toNat = 8 then ['\\', 'b']
  else if c.toNat = 12 then ['\\', 'f']
  else if c.toNat < 32 then ['\\', 'u', '0', '0', hexDigit (c.toNat / 16), hexDigit (c.toNat % 16)]
  else [c]

def quote (s : String) : String :=
  String.ofList ('"' :: (s.toList.flatMap escapeChar ++ ['"']))

def numberText : Number → String
  | .nat n => n.repr
  | .neg n => toString n
  | .float bits => floatLayout.render bits

mutual

def compact : Json → String
  | .null => "null"
  | .bool b => if b then "true" else "false"
  | .num n => numberText n
  | .str s => quote s
  | .arr items => "[" ++ ",".intercalate (compactItems items) ++ "]"
  | .obj fields => "\x7b" ++ ",".intercalate (compactFields fields) ++ "\x7d"

def compactItems : List Json → List String
  | [] => []
  | j :: rest => compact j :: compactItems rest

def compactFields : List (String × Json) → List String
  | [] => []
  | (k, v) :: rest => (quote k ++ ":" ++ compact v) :: compactFields rest

end

def indentation (level : Nat) : String := String.ofList (List.replicate (2 * level) ' ')

mutual

/-- Pretty JSON text of a value whose first line is already indented to `level`. -/
def pretty (level : Nat) : Json → String
  | .arr [] => "[]"
  | .obj [] => "\x7b\x7d"
  | .arr items =>
    "[\n" ++ ",\n".intercalate (prettyItems (level + 1) items) ++ "\n" ++ indentation level ++ "]"
  | .obj fields =>
    "\x7b\n" ++ ",\n".intercalate (prettyFields (level + 1) fields) ++ "\n" ++
      indentation level ++ "\x7d"
  | j => compact j

def prettyItems (level : Nat) : List Json → List String
  | [] => []
  | j :: rest => (indentation level ++ pretty level j) :: prettyItems level rest

def prettyFields (level : Nat) : List (String × Json) → List String
  | [] => []
  | (k, v) :: rest =>
    (indentation level ++ quote k ++ ": " ++ pretty level v) :: prettyFields level rest

end

def render (j : Json) : String := pretty 0 j

end BrilFlow.Json
