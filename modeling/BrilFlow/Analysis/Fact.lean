import BrilFlow.Analysis.Sorted
import BrilFlow.Program.Json

/-! Facts as shown: a set of item texts, sorted without repeats, or a map from variables to
constants, `?` for unknown; `∅` when empty, items joined by `, `. -/
namespace BrilFlow

/-- What is known of a variable's value: a literal, or that it varies. -/
inductive ConstValue where
  | known (l : Literal)
  | unknown
deriving DecidableEq, Repr, Inhabited

def ConstValue.render : ConstValue → String
  | .known l => l.render
  | .unknown => "?"

def ConstValue.toJson : ConstValue → Json
  | .known l => l.toJson
  | .unknown => .str "?"

inductive FactValue where
  | set (items : List String)
  | map (entries : List (String × ConstValue))
deriving DecidableEq, Repr, Inhabited

namespace FactValue

def ofTexts (texts : List String) : FactValue := .set (Sorted.ofList texts)

def isEmpty : FactValue → Bool
  | .set items => items.isEmpty
  | .map entries => entries.isEmpty

/-- Whether the fact holds an item (for a map, a variable). -/
def contains (v : FactValue) (item : String) : Bool :=
  match v with
  | .set items => items.contains item
  | .map entries => entries.any (·.1 == item)

def render : FactValue → String
  | .set [] | .map [] => "∅"
  | .set items => ", ".intercalate items
  | .map entries => ", ".intercalate (entries.map fun (k, c) => k ++ ": " ++ c.render)

def toJson : FactValue → Json
  | .set items => Json.strs items
  | .map entries => .obj (entries.map fun (k, c) => (k, c.toJson))

end FactValue
end BrilFlow
