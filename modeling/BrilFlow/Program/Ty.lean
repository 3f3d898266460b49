/-! Bril types: a primitive name, or a map from parameter names to types kept sorted by name with
one entry per name, written `name<inner>`. -/
namespace BrilFlow

inductive Ty where
  | primitive (name : String)
  | parameterized (params : List (String × Ty))
deriving Repr, Inhabited

namespace Ty

mutual

def decEq : (a b : Ty) → Decidable (a = b)
  | .primitive x, .primitive y =>
    if h : x = y then isTrue (h ▸ rfl) else isFalse fun e => by injection e; contradiction
  | .parameterized xs, .parameterized ys =>
    match decEqParams xs ys with
    | isTrue h => isTrue (h ▸ rfl)
    | isFalse h => isFalse fun e => by injection e; contradiction
  | .primitive _, .parameterized _ => isFalse fun e => by cases e
  | .parameterized _, .primitive _ => isFalse fun e => by cases e

def decEqParams : (xs ys : List (String × Ty)) → Decidable (xs = ys)
  | [], [] => isTrue rfl
  | [], _ :: _ => isFalse fun e => by cases e
  | _ :: _, [] => isFalse fun e => by cases e
  | (k, t) :: xs, (k', t') :: ys =>
    if hk : k = k' then
      match decEq t t', decEqParams xs ys with
      | isTrue ht, isTrue hr => isTrue (by rw [hk, ht, hr])
      | isFalse ht, _ => isFalse fun e => by injection e with e1; injection e1; contradiction
      | _, isFalse hr => isFalse fun e => by injection e; contradiction
    else isFalse fun e => by injection e with e1; injection e1; contradiction

end

instance : DecidableEq Ty := decEq

def param (name : String) (inner : Ty) : Ty := .parameterized [(name, inner)]

/-- Inserts an entry into a list sorted by name; an entry of the same name is replaced. -/
def insertSorted (name : String) (t : Ty) : List (String × Ty) → List (String × Ty)
  | [] => [(name, t)]
  | (k, u) :: rest =>
    if name < k then (name, t) :: (k, u) :: rest
    else if name = k then (name, t) :: rest
    else (k, u) :: insertSorted name t rest

/-- Entries in the order given, sorted by name; of two entries of one name the later wins. -/
def sortEntries (entries : List (String × Ty)) : List (String × Ty) :=
  entries.foldl (fun acc e => insertSorted e.1 e.2 acc) []

mutual

/-- The text of a type: the name, or `name<inner>` for each entry. -/
def render : Ty → String
  | .primitive name => name
  | .parameterized params => renderParams params

def renderParams : List (String × Ty) → String
  | [] => ""
  | (k, t) :: rest => k ++ "<" ++ render t ++ ">" ++ renderParams rest

end

end Ty
end BrilFlow
