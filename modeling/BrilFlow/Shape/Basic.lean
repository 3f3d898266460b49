import BrilFlow.Shape.Distance
import BrilFlow.Shape.Dominator
import BrilFlow.Json.Value

/-! The shape of a control-flow graph by block name: distances, reverse postorder, retreating edges
and reducibility, as JSON and as a text summary. -/
namespace BrilFlow

structure Shape where
  pathLengths : List (String × Nat)
  reversePostorder : List String
  backEdges : List (String × String)
  reducible : Bool
deriving Inhabited

namespace Shape

def ofCfg (g : Cfg) : Shape where
  pathLengths := g.pathLengths.map fun (b, n) => (g.name b, n)
  reversePostorder := g.reversePostorder.map g.name
  backEdges := g.backEdges.map fun (a, b) => (g.name a, g.name b)
  reducible := g.isReducible

/-- The JSON object of a function's shape; distances form an object in block order. -/
def toJson (function : String) (s : Shape) : Json :=
  .obj [("function", .str function),
    ("path_lengths", .obj (s.pathLengths.map fun (b, n) => (b, Json.ofNat n))),
    ("reverse_postorder", Json.strs s.reversePostorder),
    ("back_edges", .arr (s.backEdges.map fun (a, b) => Json.strs [a, b])),
    ("reducible", .bool s.reducible)]

def render (function : String) (s : Shape) : String :=
  let lengths := s.pathLengths.map fun (b, n) => b ++ ": " ++ toString n
  let edges := s.backEdges.map fun (a, b) => a ++ " -> " ++ b
  "Function: " ++ function ++ "\n" ++
  "Path lengths: \x7b" ++ ", ".intercalate lengths ++ "\x7d\n" ++
  "Reverse postorder: " ++ ", ".intercalate s.reversePostorder ++ "\n" ++
  "Back edges: " ++ (if edges.isEmpty then "none" else ", ".intercalate edges) ++ "\n" ++
  "Reducible: " ++ (if s.reducible then "yes" else "no") ++ "\n"

end Shape
end BrilFlow
