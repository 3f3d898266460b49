import BrilFlow.Json.Error
import BrilFlow.Decimal.Read

/-! Reading JSON text one byte index at a time: blanks, words, numbers, strings, values of any
shape, skipping, and the walk over arrays and objects, with containers nested at most 127 deep. -/
namespace BrilFlow.Json

open BrilFlow.Decimal

/-- Reading from the bytes of a text, the state being the index of the next byte. -/
abbrev Reader := ReaderT ByteArray (EStateM Error Nat)

/-- The recursion limit: a container may be opened when fewer than this many are open. -/
def depthLimit : Nat := 128

def peekByte : Reader (Option UInt8) := do
  let bytes ← read
  return bytes[(← get)]?

def bump : Reader Unit := modify (· + 1)

def failHere (code : ErrorCode) : Reader α := do
  throw ⟨code, some (← get)⟩

/-- Fails at the byte after the current one (the end of the text at most). -/
def failNext (code : ErrorCode) : Reader α := do
  let bytes ← read
  throw ⟨code, some (min bytes.size ((← get) + 1))⟩

/-- Fails without an index; the enclosing container supplies it. -/
def failSchema (code : ErrorCode) : Reader α := throw ⟨code, none⟩

/-- Gives an error without an index the index reached when it surfaced. -/
def fixPosition (x : Reader α) : Reader α :=
  tryCatch x fun e => do
    match e.index with
    | some _ => throw e
    | none => throw { e with index := some (← get) }

/-- Runs a reader and keeps its failure as a value, at the index it reached. -/
def attempt (x : Reader α) : Reader (Except Error α) :=
  tryCatch (Except.ok <$> x) fun e => pure (.error e)

def isBlank (b : UInt8) : Bool := b == 32 || b == 10 || b == 13 || b == 9

def isDigit (b : UInt8) : Bool := 48 ≤ b && b ≤ 57

def skipBlanks (bytes : ByteArray) (i : Nat) : Nat :=
  if h : i < bytes.size then
    if isBlank bytes[i] then skipBlanks bytes (i + 1) else i
  else i
termination_by bytes.size - i

def skipDigits (bytes : ByteArray) (i : Nat) : Nat :=
  if h : i < bytes.size then
    if isDigit bytes[i] then skipDigits bytes (i + 1) else i
  else i
termination_by bytes.size - i

def parseWhitespace : Reader (Option UInt8) := do
  let bytes ← read
  let i := skipBlanks bytes (← get)
  set i
  return bytes[i]?

/-- Reads the rest of a word whose first byte has been read. -/
def parseIdent : List UInt8 → Reader Unit
  | [] => pure ()
  | b :: rest => do
    match ← peekByte with
    | none => failHere .eofWhileParsingValue
    | some c =>
      bump
      if c == b then parseIdent rest else failHere .expectedSomeIdent

/-! ### Numbers -/

def u64Max : Nat := UInt64.size - 1

def exceeds (acc d limit : Nat) : Bool :=
  limit / 10 ≤ acc && (limit / 10 < acc || limit % 10 < d)

def digitValue (b : UInt8) : Nat := b.toNat - 48

def powerOfTen (k : Nat) : Float := Float.ofBits (nearest 1 k)

/-- Scales a significand by a power of ten in binary64 steps of at most `10^308`. -/
def scaleByTen (f : Float) (exponent : Int) (steps : Nat) : Option Float :=
  if exponent.natAbs ≤ 308 then
    if 0 ≤ exponent then
      let g := f * powerOfTen exponent.toNat
      if g.toBits &&& 0x7fffffffffffffff == infinityBits then none else some g
    else some (f / powerOfTen exponent.natAbs)
  else if f == 0 then some f
  else if 0 ≤ exponent then none
  else match steps with
    | 0 => some (f / powerOfTen 308)
    | steps + 1 => scaleByTen (f / powerOfTen 308) (exponent + 308) steps

/-- The float `±significand · 10^exponent`, or out of range. -/
def floatOfParts (positive : Bool) (significand : Nat) (exponent : Int) : Reader Number := do
  match scaleByTen (Float.ofBits (nearest significand 0)) exponent (exponent.natAbs / 308 + 1) with
  | none => failHere .numberOutOfRange
  | some f => return .float (if positive then f.toBits else negate f.toBits)

def i32Max : Nat := Nat.pow 2 31 - 1

/-- Clamps an exponent to the 32-bit signed range. -/
def saturate (x : Int) : Int := max (-(Int.pow 2 31)) (min x (Int.pow 2 31 - 1))

/-- Reads the digits of an exponent after its first digit; `none` when it overflows. -/
def exponentDigits (acc : Nat) : Nat → Reader (Option Nat)
  | 0 => return some acc
  | fuel + 1 => do
    match ← peekByte with
    | some b =>
      if isDigit b then
        bump
        if exceeds acc (digitValue b) i32Max then return none
        else exponentDigits (acc * 10 + digitValue b) fuel
      else return some acc
    | none => return some acc

def parseExponent (positive : Bool) (significand : Nat) (start : Int) : Reader Number := do
  bump
  let positiveExponent ← do
    match ← peekByte with
    | some 43 => bump; pure true
    | some 45 => bump; pure false
    | _ => pure true
  match ← peekByte with
  | none => failHere .eofWhileParsingValue
  | some b =>
    bump
    if !isDigit b then failHere .invalidNumber
    else
      let bytes ← read
      match ← exponentDigits (digitValue b) bytes.size with
      | some e =>
        floatOfParts positive significand
          (if positiveExponent then saturate (start + e) else saturate (start - e))
      | none =>
        if significand != 0 && positiveExponent then failHere .numberOutOfRange
        else
          set (skipDigits bytes (← get))
          return .float (if positive then 0 else negate 0)

/-- After the significand stopped growing: the rest of a fraction is dropped. -/
def parseFractionOverflow (positive : Bool) (significand : Nat) (exponent : Int) :
    Reader Number := do
  let bytes ← read
  set (skipDigits bytes (← get))
  match ← peekByte with
  | some 101 | some 69 => parseExponent positive significand exponent
  | _ => floatOfParts positive significand exponent

def fractionDigits (positive : Bool) (acc : Nat) (count : Nat) (before : Int) :
    Nat → Reader (Sum Number (Nat × Nat))
  | 0 => return .inr (acc, count)
  | fuel + 1 => do
    match ← peekByte with
    | some b =>
      if isDigit b then
        if exceeds acc (digitValue b) u64Max then
          return .inl (← parseFractionOverflow positive acc (before - count))
        else
          bump
          fractionDigits positive (acc * 10 + digitValue b) (count + 1) before fuel
      else return .inr (acc, count)
    | none => return .inr (acc, count)

def parseDecimal (positive : Bool) (significand : Nat) (before : Int) : Reader Number := do
  bump
  let bytes ← read
  match ← fractionDigits positive significand 0 before bytes.size with
  | .inl n => return n
  | .inr (acc, count) =>
    if count = 0 then
      match ← peekByte with
      | some _ => failNext .invalidNumber
      | none => failNext .eofWhileParsingValue
    else
      match ← peekByte with
      | some 101 | some 69 => parseExponent positive acc (before - count)
      | _ => floatOfParts positive acc (before - count)

/-- An integer too long for 64 bits: further digits only raise the exponent. -/
def parseLongInteger (positive : Bool) (significand : Nat) : Reader Number := do
  let bytes ← read
  let i ← get
  let j := skipDigits bytes i
  set j
  let exponent : Int := j - i
  match ← peekByte with
  | some 46 => parseDecimal positive significand exponent
  | some 101 | some 69 => parseExponent positive significand exponent
  | _ => floatOfParts positive significand exponent

def parseNumberTail (positive : Bool) (significand : Nat) : Reader Number := do
  match ← peekByte with
  | some 46 => parseDecimal positive significand 0
  | some 101 | some 69 => parseExponent positive significand 0
  | _ =>
    if positive then return .nat significand
    else if significand = 0 ∨ Nat.pow 2 63 < significand then
      return .float (negate (nearest significand 0))
    else return .neg (-(significand : Int))

def integerDigits (positive : Bool) (acc : Nat) : Nat → Reader Number
  | 0 => parseNumberTail positive acc
  | fuel + 1 => do
    match ← peekByte with
    | some b =>
      if isDigit b then
        if exceeds acc (digitValue b) u64Max then parseLongInteger positive acc
        else
          bump
          integerDigits positive (acc * 10 + digitValue b) fuel
      else parseNumberTail positive acc
    | none => parseNumberTail positive acc

def parseNumber (positive : Bool) : Reader Number := do
  match ← peekByte with
  | none => failHere .eofWhileParsingValue
  | some b =>
    bump
    if b == 48 then
      match ← peekByte with
      | some c => if isDigit c then failNext .invalidNumber else parseNumberTail positive 0
      | none => parseNumberTail positive 0
    else if isDigit b then
      let bytes ← read
      integerDigits positive (digitValue b) bytes.size
    else failHere .invalidNumber

/-! ### Strings -/

def hexValue (digits : List UInt8) : Option Nat :=
  digits.foldlM (fun acc b =>
    if 48 ≤ b && b ≤ 57 then some (acc * 16 + (b.toNat - 48))
    else if 97 ≤ b && b ≤ 102 then some (acc * 16 + (b.toNat - 87))
    else if 65 ≤ b && b ≤ 70 then some (acc * 16 + (b.toNat - 55))
    else none) 0

def hexEscape : Reader Nat := do
  let bytes ← read
  let i ← get
  if i + 4 ≤ bytes.size then
    set (i + 4)
    match hexValue ((bytes.extract i (i + 4)).toList) with
    | some n => return n
    | none => failHere .invalidEscape
  else
    set bytes.size
    failHere .eofWhileParsingString

def utf8Bytes (n : Nat) : List UInt8 := (Char.ofNat n).toString.toUTF8.toList

/-- Reads a `\u` escape, pairing surrogates; the `u` has been read. -/
def unicodeEscape : Reader (List UInt8) := do
  let n ← hexEscape
  if 0xDC00 ≤ n ∧ n ≤ 0xDFFF then failHere .loneLeadingSurrogate
  else if n < 0xD800 ∨ 0xDBFF < n then return utf8Bytes n
  else
    match ← peekByte with
    | none => failHere .eofWhileParsingString
    | some b =>
      bump
      if b != 92 then failHere .unexpectedEndOfHexEscape
      else
        match ← peekByte with
        | none => failHere .eofWhileParsingString
        | some c =>
          bump
          if c != 117 then failHere .unexpectedEndOfHexEscape
          else
            let m ← hexEscape
            if m < 0xDC00 ∨ 0xDFFF < m then failHere .loneLeadingSurrogate
            else return utf8Bytes (((n - 0xD800) <<< 10 ||| (m - 0xDC00)) + 0x10000)

def escape : Reader (List UInt8) := do
  match ← peekByte with
  | none => failHere .eofWhileParsingString
  | some b =>
    bump
    match b with
    | 34 => return [34]
    | 92 => return [92]
    | 47 => return [47]
    | 98 => return [8]
    | 102 => return [12]
    | 110 => return [10]
    | 114 => return [13]
    | 116 => return [9]
    | 117 => unicodeEscape
    | _ => failHere .invalidEscape

def stringBytes (acc : Array UInt8) : Nat → Reader (Array UInt8)
  | 0 => failHere .eofWhileParsingString
  | fuel + 1 => do
    match ← peekByte with
    | none => failHere .eofWhileParsingString
    | some b =>
      bump
      if b == 34 then return acc
      else if b == 92 then stringBytes (acc ++ (← escape).toArray) fuel
      else if b < 32 then failHere .controlCharacterInString
      else stringBytes (acc.push b) fuel

def parseString : Reader String := do
  let bytes ← read
  let acc ← stringBytes #[] (bytes.size + 1)
  return (String.fromUTF8? (ByteArray.mk acc)).getD ""

def skipEscape : Reader Unit := do
  match ← peekByte with
  | none => failHere .eofWhileParsingString
  | some b =>
    bump
    if b == 117 then discard hexEscape
    else if [34, 92, 47, 98, 102, 110, 114, 116].contains b then pure ()
    else failHere .invalidEscape

/-- Skips a string whose opening quote has been read. Unlike reading, skipping reports a control
character at its own index. -/
def skipStringBody : Nat → Reader Unit
  | 0 => failHere .eofWhileParsingString
  | fuel + 1 => do
    match ← peekByte with
    | none => failHere .eofWhileParsingString
    | some b =>
      if b < 32 then failHere .controlCharacterInString
      else
        bump
        if b == 34 then pure ()
        else if b == 92 then do skipEscape; skipStringBody fuel
        else skipStringBody fuel

def skipString : Reader Unit := do
  let bytes ← read
  skipStringBody (bytes.size + 1)

/-! ### Values of any shape -/

/-- Closes an array: a comma here is an error after the fact. -/
def endSeq : Reader Unit := do
  match ← parseWhitespace with
  | some 93 => bump
  | some 44 =>
    bump
    match ← parseWhitespace with
    | some 93 => failNext .trailingComma
    | _ => failNext .trailingCharacters
  | some _ => failNext .trailingCharacters
  | none => failNext .eofWhileParsingList

/-- Closes an object; the closing brace is read only when it is there. -/
def endMap : Reader Unit := do
  match ← parseWhitespace with
  | some 125 => bump
  | some 44 => failNext .trailingComma
  | some _ => failNext .trailingCharacters
  | none => failNext .eofWhileParsingObject

/-- The next array element, `none` at the closing bracket; `first` for the first element. -/
def nextElement (first : Bool) (elem : Reader α) : Reader (Option α) := do
  match ← parseWhitespace with
  | some 93 => return none
  | some 44 =>
    if first then some <$> elem
    else
      bump
      match ← parseWhitespace with
      | some 93 => failNext .trailingComma
      | some _ => some <$> elem
      | none => failNext .eofWhileParsingValue
  | some _ => if first then some <$> elem else failNext .expectedListCommaOrEnd
  | none => failNext .eofWhileParsingList

/-- The next key of an object, `none` at the closing brace; `first` for the first member. -/
def nextKey (first : Bool) : Reader (Option String) := do
  match ← parseWhitespace with
  | some 125 => return none
  | some 44 =>
    if first then failNext .keyMustBeAString
    else
      bump
      match ← parseWhitespace with
      | some 34 => bump; some <$> parseString
      | some 125 => failNext .trailingComma
      | some _ => failNext .keyMustBeAString
      | none => failNext .eofWhileParsingValue
  | some 34 => if first then do bump; some <$> parseString else failNext .expectedObjectCommaOrEnd
  | some _ => if first then failNext .keyMustBeAString else failNext .expectedObjectCommaOrEnd
  | none => failNext .eofWhileParsingObject

def nextValue (value : Reader α) : Reader α := do
  match ← parseWhitespace with
  | some 58 => bump; value
  | some _ => failNext .expectedColon
  | none => failNext .eofWhileParsingObject

/-- Opens a container: fails when `depth` containers would be open. -/
def openContainer (depth : Nat) : Reader Nat := do
  if depth ≤ 1 then failNext .recursionLimitExceeded
  else
    bump
    return depth - 1

/-- Runs a container's contents and then its closing, whose failure counts only when the
contents were read. -/
def closing (contents : Reader α) (close : Reader Unit) : Reader α := do
  let r ← attempt contents
  let c ← attempt close
  match r, c with
  | .error e, _ => throw e
  | .ok _, .error e => throw e
  | .ok v, .ok () => return v

mutual

/-- Reads a value of any shape; `depth` containers may still be opened. -/
def parseAny (depth : Nat) : Nat → Reader Json
  | 0 => failHere .eofWhileParsingValue
  | fuel + 1 => fixPosition do
    match ← parseWhitespace with
    | none => failNext .eofWhileParsingValue
    | some 110 => bump; parseIdent [117, 108, 108]; return .null
    | some 116 => bump; parseIdent [114, 117, 101]; return .bool true
    | some 102 => bump; parseIdent [97, 108, 115, 101]; return .bool false
    | some 45 => bump; return .num (← parseNumber false)
    | some 34 => bump; return .str (← parseString)
    | some 91 =>
      let inner ← openContainer depth
      closing (.arr <$> parseItems inner true fuel) endSeq
    | some 123 =>
      let inner ← openContainer depth
      closing (.obj <$> parseMembers inner true fuel) endMap
    | some b =>
      if isDigit b then return .num (← parseNumber true) else failNext .expectedSomeValue

def parseItems (depth : Nat) (first : Bool) : Nat → Reader (List Json)
  | 0 => failHere .eofWhileParsingList
  | fuel + 1 => do
    match ← nextElement first (parseAny depth fuel) with
    | none => return []
    | some j => return j :: (← parseItems depth false fuel)

def parseMembers (depth : Nat) (first : Bool) : Nat → Reader (List (String × Json))
  | 0 => failHere .eofWhileParsingObject
  | fuel + 1 => do
    match ← nextKey first with
    | none => return []
    | some k =>
      let v ← nextValue (parseAny depth fuel)
      return (k, v) :: (← parseMembers depth false fuel)

end

def value (depth : Nat) : Reader Json := do
  let bytes ← read
  parseAny depth (bytes.size + 1)

def skipNumber : Reader Unit := do
  let bytes ← read
  match ← peekByte with
  | some 48 =>
    bump
    match ← peekByte with
    | some c => if isDigit c then failNext .invalidNumber else pure ()
    | none => pure ()
  | some b =>
    bump
    if isDigit b then set (skipDigits bytes (← get)) else failHere .invalidNumber
  | none => failHere .invalidNumber
  match ← peekByte with
  | some 46 =>
    bump
    let i ← get
    let j := skipDigits bytes i
    set j
    if j = i then failNext .invalidNumber
    else
      match ← peekByte with
      | some 101 | some 69 => skipExponent bytes
      | _ => pure ()
  | some 101 | some 69 => skipExponent bytes
  | _ => pure ()
where
  skipExponent (bytes : ByteArray) : Reader Unit := do
    bump
    match ← peekByte with
    | some 43 | some 45 => bump
    | _ => pure ()
    match ← peekByte with
    | some b =>
      bump
      if isDigit b then set (skipDigits bytes (← get)) else failHere .invalidNumber
    | none => failHere .invalidNumber

def commaOrEnd (frame : UInt8) : ErrorCode :=
  if frame == 91 then .expectedListCommaOrEnd else .expectedObjectCommaOrEnd

def eofIn (frame : UInt8) : ErrorCode :=
  if frame == 91 then .eofWhileParsingList else .eofWhileParsingObject

/-- After a value inside the open containers `frame :: rest`: reads closers and at most one
comma; `none` once the outermost container is closed, else the containers still open. -/
def skipClosers (frame : UInt8) (rest : List UInt8) (acceptComma : Bool) :
    Nat → Reader (Option (UInt8 × List UInt8))
  | 0 => failHere (eofIn frame)
  | fuel + 1 => do
    match ← parseWhitespace with
    | some 44 =>
      if acceptComma then do bump; return some (frame, rest)
      else return some (frame, rest)
    | some b =>
      if (b == 93 && frame == 91) || (b == 125 && frame == 123) then
        bump
        match rest with
        | [] => return none
        | f :: r => skipClosers f r true fuel
      else if acceptComma then failNext (commaOrEnd frame)
      else return some (frame, rest)
    | none => failNext (eofIn frame)

/-- Skips values inside the open containers `stack`, innermost first, until all are closed. -/
def skipLoop (stack : List UInt8) : Nat → Reader Unit
  | 0 => failHere .eofWhileParsingValue
  | fuel + 1 => do
    let opened ← do
      match ← parseWhitespace with
      | none => failNext .eofWhileParsingValue
      | some 110 => bump; parseIdent [117, 108, 108]; pure none
      | some 116 => bump; parseIdent [114, 117, 101]; pure none
      | some 102 => bump; parseIdent [97, 108, 115, 101]; pure none
      | some 45 => bump; skipNumber; pure none
      | some 34 => bump; skipString; pure none
      | some 91 => bump; pure (some (91 : UInt8))
      | some 123 => bump; pure (some (123 : UInt8))
      | some b => if isDigit b then do skipNumber; pure none else failNext .expectedSomeValue
    let next ← do
      match opened, stack with
      | some f, _ => skipClosers f stack false fuel
      | none, [] => pure none
      | none, f :: rest => skipClosers f rest true fuel
    match next with
    | none => pure ()
    | some (frame, rest) =>
      if frame == 123 then
        match ← parseWhitespace with
        | some 34 => bump
        | some _ => failNext .keyMustBeAString
        | none => failNext .eofWhileParsingObject
        skipString
        match ← parseWhitespace with
        | some 58 => bump
        | some _ => failNext .expectedColon
        | none => failNext .eofWhileParsingObject
      skipLoop (frame :: rest) fuel

/-- Skips one value of any shape, checking its form but not its depth. -/
def skipValue : Reader Unit := do
  let bytes ← read
  skipLoop [] (bytes.size + 1)

/-! ### Reading against a schema -/

/-- The type error for the value ahead, reading scalars so that the error stands after them. -/
def invalidTypeAhead (expected : String) : Reader α := fixPosition do
  match ← peekByte with
  | some 110 => bump; parseIdent [117, 108, 108]; failSchema (.invalidType .unit expected)
  | some 116 =>
    bump; parseIdent [114, 117, 101]; failSchema (.invalidType (.bool true) expected)
  | some 102 =>
    bump; parseIdent [97, 108, 115, 101]; failSchema (.invalidType (.bool false) expected)
  | some 45 => bump; failSchema (.invalidType (unexpectedNumber (← parseNumber false)) expected)
  | some 34 => bump; failSchema (.invalidType (.str (← parseString)) expected)
  | some 91 => failSchema (.invalidType .seq expected)
  | some 123 => failSchema (.invalidType .map expected)
  | some b =>
    if isDigit b then failSchema (.invalidType (unexpectedNumber (← parseNumber true)) expected)
    else failNext .expectedSomeValue
  | none => failNext .expectedSomeValue
where
  unexpectedNumber : Number → Unexpected
    | .nat n => .unsigned n
    | .neg n => .signed n
    | .float bits => .float bits

def readString (expected : String := "a string") : Reader String := fixPosition do
  match ← parseWhitespace with
  | none => failNext .eofWhileParsingValue
  | some 34 => bump; parseString
  | some _ => invalidTypeAhead expected

def readOption (inner : Reader α) : Reader (Option α) := do
  match ← parseWhitespace with
  | some 110 => bump; parseIdent [117, 108, 108]; return none
  | _ => some <$> inner

/-- Reads a container of a schema: an array with `viaSeq` or an object with `viaMap`, each
given the remaining depth; any other value is a type error naming `expected`. -/
def readContainer (depth : Nat) (expected : String) (viaSeq : Option (Nat → Reader α))
    (viaMap : Option (Nat → Reader α)) : Reader α := fixPosition do
  match ← parseWhitespace, viaSeq, viaMap with
  | none, _, _ => failNext .eofWhileParsingValue
  | some 91, some v, _ =>
    let inner ← openContainer depth
    closing (v inner) endSeq
  | some 123, _, some v =>
    let inner ← openContainer depth
    closing (v inner) endMap
  | some _, _, _ => invalidTypeAhead expected

def seqElements (elem : Reader α) (first : Bool) : Nat → Reader (List α)
  | 0 => failHere .eofWhileParsingList
  | fuel + 1 => do
    match ← nextElement first elem with
    | none => return []
    | some x => return x :: (← seqElements elem false fuel)

def readSeq (depth : Nat) (elem : Nat → Reader α) : Reader (List α) := do
  let bytes ← read
  readContainer depth "a sequence"
    (some fun inner => seqElements (elem inner) true (bytes.size + 1)) none

/-- Reads a whole text with `r`: after it only blanks may follow. -/
def readAll (r : Reader α) (text : String) : Except Error α :=
  let bytes := text.toUTF8
  let whole : Reader α := do
    let x ← r
    match ← parseWhitespace with
    | some _ => failNext .trailingCharacters
    | none => return x
  match (whole.run bytes).run 0 with
  | .ok x _ => .ok x
  | .error e _ => .error e

end BrilFlow.Json
