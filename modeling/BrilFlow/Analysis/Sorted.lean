/-! Finite sets as strictly increasing lists, so that equal sets are equal lists. Insertion keeps
the order and drops repeats; union inserts, difference and intersection filter. -/
namespace BrilFlow.Sorted

variable {α : Type} [Ord α]

/-- Inserts an element, keeping the list sorted and free of repeats. -/
def insert (x : α) : List α → List α
  | [] => [x]
  | y :: ys =>
    match compare x y with
    | .lt => x :: y :: ys
    | .eq => y :: ys
    | .gt => y :: insert x ys

def ofList (xs : List α) : List α := xs.foldl (fun acc x => insert x acc) []

/-- Membership by the order. -/
def mem (x : α) (xs : List α) : Bool := xs.any fun y => compare x y == .eq

def union (xs ys : List α) : List α := ys.foldl (fun acc y => insert y acc) xs

def unionAll (sets : List (List α)) : List α := sets.foldl union []

def diff (xs ys : List α) : List α := xs.filter fun x => !mem x ys

def inter (xs ys : List α) : List α := xs.filter fun x => mem x ys

end BrilFlow.Sorted
