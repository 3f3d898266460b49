import BrilFlow.Analysis.Report

/-! Fact listings: each block's name, then its `in:` and `out:` lines, an unreachable block tagged
`(unreachable)`; several reports each under an `@function:` header. -/
namespace BrilFlow

inductive Indent where
  | spaces (n : Nat)
  | tabs
deriving DecidableEq, Repr, Inhabited

def Indent.text : Indent → String
  | .spaces n => String.ofList (List.replicate n ' ')
  | .tabs => "\t"

structure ListingStyle where
  colors : Bool := true
  indent : Indent := .spaces 2
  unreachableTag : Bool := true
deriving DecidableEq, Repr, Inhabited

/-- Plain listings: no colour, two spaces, the tag on. -/
def ListingStyle.plain : ListingStyle := { colors := false }

def resetCode : String := "\x1b[0m"

/-- Text in a terminal style; resets inside the text are followed by the style again. -/
def styled (code text : String) : String :=
  code ++ (resetCode ++ code).intercalate (text.splitOn resetCode) ++ resetCode

def bold (text : String) : String := styled "\x1b[1m" text

def dimmed (text : String) : String := styled "\x1b[2m" text

def cyan (text : String) : String := styled "\x1b[36m" text

def ListingStyle.block (st : ListingStyle) (b : BlockFacts) : String :=
  let indent := st.indent.text
  let name := if st.colors then bold b.name else b.name
  let tag :=
    if !b.reachable && st.unreachableTag then
      "  " ++ (if st.colors then dimmed "(unreachable)" else "(unreachable)")
    else ""
  name ++ ":\n" ++ indent ++ "in:  " ++ b.input.render ++ tag ++ "\n" ++
    indent ++ "out: " ++ b.output.render ++ tag ++ "\n"

def ListingStyle.report (st : ListingStyle) (r : FunctionReport) : String :=
  String.join (r.blocks.map st.block)

/-- The listing of several reports, with headers when there are more than one. -/
def ListingStyle.reports (st : ListingStyle) (rs : List FunctionReport) : String :=
  if rs.length ≤ 1 then String.join (rs.map st.report)
  else "\n".intercalate (rs.map fun r =>
    let header := "@" ++ r.function ++ ":"
    (if st.colors then cyan header else header) ++ "\n" ++ st.report r)

end BrilFlow
