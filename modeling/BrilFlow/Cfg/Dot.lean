import BrilFlow.Cfg.Basic

/-! Graphs in DOT: `digraph "f" {`, a line per block, a line `"a" -> "b";` per successor entry,
and `}`. Names are quoted by doubling backslashes and then escaping double quotes. -/
namespace BrilFlow

/-- A name between double quotes: its backslashes doubled, then a backslash put before each of
its double quotes. -/
def dotQuote (s : String) : String :=
  "\"" ++ (s.replace '\\' "\\\\").replace '"' "\\\"" ++ "\""

/-- The DOT text of a function's graph, each statement indented by `indent`. -/
def Cfg.toDot (g : Cfg) (function indent : String) : String :=
  "digraph " ++ dotQuote function ++ " \x7b\n" ++
    String.join (g.names.map fun n => indent ++ dotQuote n ++ ";\n") ++
    String.join (g.edges.map fun (a, b) =>
      indent ++ dotQuote (g.name a) ++ " -> " ++ dotQuote (g.name b) ++ ";\n") ++
    "\x7d\n"

end BrilFlow
