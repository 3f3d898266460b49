import BrilFlow.Text.Lower
import BrilFlow.Program.JsonText

/-! Reading a program in either syntax; `auto` reads a source whose first non-blank character is
`{` as JSON and anything else as text. -/
namespace BrilFlow

inductive SourceFormat where
  | json
  | text
  | auto
deriving DecidableEq, Repr

def Program.parseJson (source : String) : Except ParseError Program :=
  match Program.ofJsonText source with
  | .ok p => .ok p
  | .error e => .error (.json (e.message source.toUTF8))

def Program.parseText (source : String) : Except ParseError Program := Text.Program.ofText source

/-- The characters with the Unicode property White_Space. -/
def isUnicodeSpace (c : Char) : Bool :=
  let n := c.toNat
  (9 ≤ n ∧ n ≤ 13) ∨ n = 32 ∨ n = 0x85 ∨ n = 0xA0 ∨ n = 0x1680 ∨ (0x2000 ≤ n ∧ n ≤ 0x200A) ∨
    n = 0x2028 ∨ n = 0x2029 ∨ n = 0x202F ∨ n = 0x205F ∨ n = 0x3000

/-- Whether a source looks like JSON: its first character that is not white space is `{`. -/
def looksLikeJson (source : String) : Bool :=
  (source.toList.dropWhile isUnicodeSpace).head? = some '{'

def Program.parse (source : String) : SourceFormat → Except ParseError Program
  | .json => Program.parseJson source
  | .text => Program.parseText source
  | .auto => if looksLikeJson source then Program.parseJson source else Program.parseText source

end BrilFlow
