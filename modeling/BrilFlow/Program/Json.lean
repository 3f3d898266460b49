import BrilFlow.Program.Basic
import BrilFlow.Json.Value

/-! Programs as JSON values. Writing lists only the present fields; reading goes by shape, trying
alternatives in a fixed order, with records read from objects or from arrays of their fields. -/
namespace BrilFlow

mutual

def Ty.toJson : Ty → Json
  | .primitive name => .str name
  | .parameterized params => .obj (Ty.paramsToJson params)

def Ty.paramsToJson : List (String × Ty) → List (String × Json)
  | [] => []
  | (k, t) :: rest => (k, Ty.toJson t) :: Ty.paramsToJson rest

end

def Literal.toJson : Literal → Json
  | .bool b => .bool b
  | .int n => Json.ofInt n
  | .float bits => .num (.float bits)
  | .char c => .str c.toString

/-- A member that is present only when the value is. -/
def optionalMember (key : String) : Option Json → List (String × Json)
  | some j => [(key, j)]
  | none => []

/-- A member that is present only when the list is not empty. -/
def listMember (key : String) (xs : List String) : List (String × Json) :=
  if xs.isEmpty then [] else [(key, Json.strs xs)]

def Operation.toJson (o : Operation) : Json :=
  .obj ([("op", .str o.op)] ++ optionalMember "dest" (o.dest.map .str) ++
    optionalMember "type" (o.ty.map Ty.toJson) ++ listMember "args" o.args ++
    listMember "labels" o.labels ++ listMember "funcs" o.funcs ++
    optionalMember "value" (o.value.map Literal.toJson))

def Instr.toJson : Instr → Json
  | .label name => .obj [("label", .str name)]
  | .op o => o.toJson

def Argument.toJson (a : Argument) : Json := .obj [("name", .str a.name), ("type", a.ty.toJson)]

def Function.toJson (f : Function) : Json :=
  .obj ([("name", .str f.name)] ++
    (if f.args.isEmpty then [] else [("args", .arr (f.args.map Argument.toJson))]) ++
    optionalMember "type" (f.ret.map Ty.toJson) ++ [("instrs", .arr (f.instrs.map Instr.toJson))])

def Program.toJson (p : Program) : Json := .obj [("functions", .arr (p.functions.map Function.toJson))]

/-! ### Reading values by shape -/

def Json.string? : Json → Option String
  | .str s => some s
  | _ => none

def Json.strings? : Json → Option (List String)
  | .arr items => items.mapM Json.string?
  | _ => none

def Json.optional? (read : Json → Option α) : Json → Option (Option α)
  | .null => some none
  | j => (read j).map some

mutual

def Ty.ofJson? : Json → Option Ty
  | .str s => some (.primitive s)
  | .obj fields => (Ty.paramsOfJson? fields).map fun entries => .parameterized (Ty.sortEntries entries)
  | _ => none

def Ty.paramsOfJson? : List (String × Json) → Option (List (String × Ty))
  | [] => some []
  | (k, j) :: rest => do
    let t ← Ty.ofJson? j
    let ts ← Ty.paramsOfJson? rest
    return (k, t) :: ts

end

/-- A literal read from a JSON value: a boolean, a 64-bit integer, a float, then a
one-character string. -/
def Literal.ofJson? : Json → Option Literal
  | .bool b => some (.bool b)
  | .num (.nat n) => if n ≤ Literal.intMax.toNat then some (.int n) else some (.float (Literal.floatOfInt n))
  | .num (.neg n) => some (.int n)
  | .num (.float bits) => some (.float bits)
  | .str s =>
    match s.toList with
    | [c] => some (.char c)
    | _ => none
  | _ => none

/-- A label read from a JSON value: an object with exactly one `label` member holding a string.
Only the object form names a label; an array is always read as an operation. -/
def labelOfJson? : Json → Option String
  | .obj fields =>
    match fields.filter (·.1 == "label") with
    | [(_, .str s)] => some s
    | _ => none
  | _ => none

structure OperationFields where
  op : Option String := none
  dest : Option (Option String) := none
  ty : Option (Option Ty) := none
  args : Option (List String) := none
  labels : Option (List String) := none
  funcs : Option (List String) := none
  value : Option (Option Literal) := none

/-- Sets a field seen for the first time; a second sighting fails. -/
def firstSighting (seen : Option α) (read : Option α) : Option (Option α) :=
  match seen with
  | some _ => none
  | none => read.map some

def OperationFields.take (fs : OperationFields) : String × Json → Option OperationFields
  | ("op", j) => do return { fs with op := ← firstSighting fs.op (Json.string? j) }
  | ("dest", j) => do return { fs with dest := ← firstSighting fs.dest (Json.optional? Json.string? j) }
  | ("type", j) => do return { fs with ty := ← firstSighting fs.ty (Json.optional? Ty.ofJson? j) }
  | ("args", j) => do return { fs with args := ← firstSighting fs.args (Json.strings? j) }
  | ("labels", j) => do return { fs with labels := ← firstSighting fs.labels (Json.strings? j) }
  | ("funcs", j) => do return { fs with funcs := ← firstSighting fs.funcs (Json.strings? j) }
  | ("value", j) =>
    do return { fs with value := ← firstSighting fs.value (Json.optional? Literal.ofJson? j) }
  | _ => some fs

/-- The operation once all members are taken; `op` is required. -/
def OperationFields.finish (fs : OperationFields) : Option Operation := do
  let op ← fs.op
  return { op, dest := fs.dest.getD none, ty := fs.ty.getD none, args := fs.args.getD [],
           labels := fs.labels.getD [], funcs := fs.funcs.getD [], value := fs.value.getD none }

/-- An optional trailing array item read with `read`, its default when missing. -/
def itemOr (default : α) (read : Json → Option α) : Option Json → Option α
  | some j => read j
  | none => some default

def Operation.ofJson? : Json → Option Operation
  | .obj fields => do
    let fs ← fields.foldlM OperationFields.take {}
    fs.finish
  | .arr items => do
    if 7 < items.length then none
    let op ← (items[0]?).bind Json.string?
    let dest ← itemOr none (Json.optional? Json.string?) items[1]?
    let ty ← itemOr none (Json.optional? Ty.ofJson?) items[2]?
    let args ← itemOr [] Json.strings? items[3]?
    let labels ← itemOr [] Json.strings? items[4]?
    let funcs ← itemOr [] Json.strings? items[5]?
    let value ← itemOr none (Json.optional? Literal.ofJson?) items[6]?
    return { op, dest, ty, args, labels, funcs, value }
  | _ => none

/-- An instruction read from a JSON value: a label, else an operation. -/
def Instr.ofJson? (j : Json) : Option Instr :=
  match labelOfJson? j with
  | some name => some (.label name)
  | none => (Operation.ofJson? j).map .op

end BrilFlow
