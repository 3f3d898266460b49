/-! Similar words by the Jaro similarity, computed in binary64; a candidate is similar above 0.7,
and similar candidates are listed from least to most similar. -/
namespace BrilFlow.Cli

/-- Marks, for each character of `a`, the first unused character of `b` within the window that
equals it; returns the marks on both sides. -/
def jaroMatches (a b : Array Char) : Array Bool × Array Bool :=
  let range := max a.size b.size / 2 - 1
  (List.range a.size).foldl (fun (marks : Array Bool × Array Bool) i =>
    let lo := i - range
    let hi := min b.size (i + range + 1)
    let found := (List.range hi).find? fun j =>
      lo ≤ j && b[j]? == a[i]? && !(marks.2[j]?.getD false)
    match found with
    | some j => (marks.1.setIfInBounds i true, marks.2.setIfInBounds j true)
    | none => marks) (Array.replicate a.size false, Array.replicate b.size false)

def marked (s : Array Char) (marks : Array Bool) : List Char :=
  (List.range s.size).filterMap fun i => if marks[i]?.getD false then s[i]? else none

def jaro (a b : String) : Float :=
  let a := a.toList.toArray
  let b := b.toList.toArray
  if a.size = 0 && b.size = 0 then 1.0
  else if a.size = 0 || b.size = 0 then 0.0
  else
    let (ma, mb) := jaroMatches a b
    let xs := marked a ma
    let ys := marked b mb
    let m := xs.length
    let t := ((xs.zip ys).filter fun (x, y) => x != y).length / 2
    if m = 0 then 0.0
    else (m.toFloat / a.size.toFloat + m.toFloat / b.size.toFloat
      + (m - t).toFloat / m.toFloat) / 3.0

/-- Inserts a scored candidate after every candidate scored no higher. -/
def insertByScore (c : Float × String) : List (Float × String) → List (Float × String)
  | [] => [c]
  | d :: ds => if c.1 < d.1 then c :: d :: ds else d :: insertByScore c ds

/-- The candidates similar to `word`, least similar first, ties in the given order. -/
def similar (word : String) (candidates : List String) : List String :=
  let scored := candidates.filterMap fun c =>
    let s := jaro word c
    if s > 0.7 then some (s, c) else none
  (scored.foldl (fun acc c => insertByScore c acc) []).map (·.2)

/-- The candidate most similar to `word`, the last one on a tie. -/
def mostSimilar? (word : String) (candidates : List String) : Option String :=
  (similar word candidates).getLast?

end BrilFlow.Cli
