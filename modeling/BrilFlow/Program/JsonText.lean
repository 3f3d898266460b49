import BrilFlow.Program.Json
import BrilFlow.Json.Reader

/-! Reading a program from JSON text in one pass against its schema, so the first fault in reading
order is reported, whether the text is malformed there or holds a value of the wrong kind. -/
namespace BrilFlow

open BrilFlow.Json

def readTy (depth : Nat) : Reader Ty := do
  match Ty.ofJson? (← Json.value depth) with
  | some t => return t
  | none => failSchema (.noVariant "Type")

def readInstr (depth : Nat) : Reader Instr := do
  match Instr.ofJson? (← Json.value depth) with
  | some i => return i
  | none => failSchema (.noVariant "Instruction")

/-- Walks the members of an object, handing each key to `member`, which reads the colon and the
value into the accumulator. -/
def readMembers (member : σ → String → Reader σ) (init : σ) : Reader σ := do
  let bytes ← read
  go init true (bytes.size + 1)
where
  go (acc : σ) (first : Bool) : Nat → Reader σ
    | 0 => failHere .eofWhileParsingObject
    | fuel + 1 => do
      match ← nextKey first with
      | none => return acc
      | some k => go (← member acc k) false fuel

/-- Reads a member's value into a field not seen before. -/
def readField (name : String) (seen : Option α) (value : Reader α) : Reader (Option α) := do
  match seen with
  | some _ => failSchema (.duplicateField name)
  | none => return some (← nextValue value)

def requireField (name : String) : Option α → Reader α
  | some x => pure x
  | none => failSchema (.missingField name)

/-- A field of a record read from an array: `none` past its end. -/
def readItem (first : Bool) (value : Reader α) : Reader (Option α) := nextElement first value

/-- A required field of a record read from an array at position `index`. -/
def requireItem (index : Nat) (expected : String) : Option α → Reader α
  | some x => pure x
  | none => failSchema (.invalidLength index expected)

def readArgument (depth : Nat) : Reader Argument :=
  readContainer depth "struct Argument"
    (some fun inner => do
      let name ← requireItem 0 "struct Argument with 2 elements" (← readItem true readString)
      let ty ← requireItem 1 "struct Argument with 2 elements" (← readItem false (readTy inner))
      return { name, ty })
    (some fun inner => do
      let (name, ty) ← readMembers (fun (acc : Option String × Option Ty) key =>
        match key with
        | "name" => return (← readField "name" acc.1 readString, acc.2)
        | "type" => return (acc.1, ← readField "type" acc.2 (readTy inner))
        | _ => do nextValue skipValue; return acc) (none, none)
      return { name := ← requireField "name" name, ty := ← requireField "type" ty })

structure FunctionFields where
  name : Option String := none
  args : Option (List Argument) := none
  ret : Option (Option Ty) := none
  instrs : Option (List Instr) := none

def readFunction (depth : Nat) : Reader Function :=
  readContainer depth "struct Function"
    (some fun inner => do
      let name ← requireItem 0 "struct Function with 4 elements" (← readItem true readString)
      let args ← readItem false (readSeq inner readArgument)
      let ret ← readItem false (readOption (readTy inner))
      let instrs ← readItem false (readSeq inner readInstr)
      return { name, args := args.getD [], ret := ret.getD none, instrs := instrs.getD [] })
    (some fun inner => do
      let fs ← readMembers (fun (fs : FunctionFields) key =>
        match key with
        | "name" => return { fs with name := ← readField "name" fs.name readString }
        | "args" => return { fs with args := ← readField "args" fs.args (readSeq inner readArgument) }
        | "type" => return { fs with ret := ← readField "type" fs.ret (readOption (readTy inner)) }
        | "instrs" =>
          return { fs with instrs := ← readField "instrs" fs.instrs (readSeq inner readInstr) }
        | _ => do nextValue skipValue; return fs) {}
      return { name := ← requireField "name" fs.name, args := fs.args.getD [],
               ret := fs.ret.getD none, instrs := fs.instrs.getD [] })

def readProgram (depth : Nat) : Reader Program :=
  readContainer depth "struct Program"
    (some fun inner => do
      let functions ← readItem true (readSeq inner readFunction)
      return { functions := functions.getD [] })
    (some fun inner => do
      let functions ← readMembers (fun (acc : Option (List Function)) key =>
        match key with
        | "functions" => readField "functions" acc (readSeq inner readFunction)
        | _ => do nextValue skipValue; return acc) none
      return { functions := functions.getD [] })

def Program.ofJsonText (text : String) : Except Json.Error Program :=
  readAll (readProgram depthLimit) text

end BrilFlow
