/-! Sets of code points stored as lists of closed ranges `(first, last)`, as the Unicode data files
list the maximal runs of a property. Membership is a scan of the list. -/
namespace BrilFlow.Unicode

def inRanges (ranges : List (Nat × Nat)) (n : Nat) : Bool :=
  ranges.any fun r => r.1 ≤ n && n ≤ r.2

end BrilFlow.Unicode
