/-! Parsing expressions that remember the furthest position where named rules failed, and those
rules, so a failed parse can say what was expected there. -/
namespace BrilFlow.Text

/-- Where a parse stands, and the furthest failures of named rules. -/
structure Cursor (ρ : Type) where
  pos : Nat
  furthest : Nat := 0
  expected : Array ρ := #[]

/-- A parser over characters with named rules `ρ`: a result, or failure, and the cursor after. -/
def Peg (ρ α : Type) : Type := Array Char → Cursor ρ → Option α × Cursor ρ

namespace Peg

instance : Monad (Peg ρ) where
  pure a := fun _ c => (some a, c)
  bind p f := fun s c =>
    match p s c with
    | (some a, c') => f a s c'
    | (none, c') => (none, c')

def fail : Peg ρ α := fun _ c => (none, c)

def position : Peg ρ Nat := fun _ c => (some c.pos, c)

def moveTo (pos : Nat) : Peg ρ Unit := fun _ c => (some (), { c with pos })

def peek : Peg ρ (Option Char) := fun s c => (some s[c.pos]?, c)

def atEnd : Peg ρ Bool := fun s c => (some (s.size ≤ c.pos), c)

def char (ok : Char → Bool) : Peg ρ Char := fun s c =>
  match s[c.pos]? with
  | some x => if ok x then (some x, { c with pos := c.pos + 1 }) else (none, c)
  | none => (none, c)

/-- Reads exactly the characters of `t`, or nothing. -/
def text (t : String) : Peg ρ Unit := fun s c =>
  let cs := t.toList
  if (List.range cs.length).all (fun i => s[c.pos + i]? == cs[i]?) then
    (some (), { c with pos := c.pos + cs.length })
  else (none, c)

/-- Succeeds when the next character is missing or fails `ok`, reading nothing. -/
def notNext (ok : Char → Bool) : Peg ρ Unit := fun s c =>
  match s[c.pos]? with
  | some x => if ok x then (none, c) else (some (), c)
  | none => (some (), c)

def optional (p : Peg ρ α) : Peg ρ (Option α) := fun s c =>
  match p s c with
  | (some a, c') => (some (some a), c')
  | (none, c') => (some none, { c' with pos := c.pos })

def orElse (p q : Peg ρ α) : Peg ρ α := fun s c =>
  match p s c with
  | (some a, c') => (some a, c')
  | (none, c') => q s { c' with pos := c.pos }

/-- Repeats `p` until it fails, at most `fuel` times. -/
def repeatFor (p : Peg ρ α) : Nat → Array Char → Cursor ρ → List α × Cursor ρ
  | 0, _, c => ([], c)
  | fuel + 1, s, c =>
    match p s c with
    | (some a, c') =>
      let (rest, c'') := repeatFor p fuel s c'
      (a :: rest, c'')
    | (none, c') => ([], { c' with pos := c.pos })

/-- `p` as often as it succeeds; each success reads at least one character. -/
def many (p : Peg ρ α) : Peg ρ (List α) := fun s c =>
  let (as, c') := repeatFor p (s.size + 1) s c
  (some as, c')

def sliceFrom (start : Nat) : Peg ρ String := fun s c =>
  (some (String.ofList ((s.extract start c.pos).toList)), c)

def failuresAt (c : Cursor ρ) (pos : Nat) : Nat := if c.furthest = pos then c.expected.size else 0

/-- Keeps the failure of rule `r` that started at `pos`; `index` and `before` are what was
kept at `pos` when the rule started. -/
def recordFailure (c : Cursor ρ) (r : ρ) (pos index before : Nat) : Cursor ρ :=
  let now := failuresAt c pos
  if before < now ∧ now - before = 1 then c
  else
    let c := if pos = c.furthest then { c with expected := c.expected.extract 0 index } else c
    let c := if c.furthest < pos then { c with expected := #[], furthest := pos } else c
    if pos = c.furthest then { c with expected := c.expected.push r } else c

/-- A named rule: on failure it returns to its start and its failure is kept. -/
def rule (r : ρ) (p : Peg ρ α) : Peg ρ α := fun s c =>
  let start := c.pos
  let index := if start = c.furthest then c.expected.size else 0
  let before := failuresAt c start
  match p s c with
  | (some a, c') => (some a, c')
  | (none, c') => (none, { recordFailure c' r start index before with pos := start })

def run (p : Peg ρ α) (s : Array Char) : Except (Nat × List ρ) α :=
  match p s {pos := 0} with
  | (some a, _) => .ok a
  | (none, c) => .error (c.furthest, c.expected.toList)

end Peg
end BrilFlow.Text
