import BrilFlow.Cfg.Block
import BrilFlow.Program.Json

/-! Blocks as JSON values: `{"label"?, "instructions"}`, the label left out when absent. -/
namespace BrilFlow

def Block.toJson (b : Block) : Json :=
  .obj (optionalMember "label" (b.label.map .str) ++
    [("instructions", .arr (b.ops.map Operation.toJson))])

end BrilFlow
