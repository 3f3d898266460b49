/-! JSON values. A number keeps the kind read (unsigned, negative or float bits), and an object
keeps its members in order, duplicates included. -/
namespace BrilFlow

/-- A JSON number, classified as read. -/
inductive Number where
  | nat (n : Nat)
  | neg (n : Int)
  | float (bits : UInt64)
deriving DecidableEq, Repr, Inhabited

inductive Json where
  | null
  | bool (b : Bool)
  | num (n : Number)
  | str (s : String)
  | arr (items : List Json)
  | obj (fields : List (String × Json))
deriving Repr, Inhabited

namespace Json

/-- An integer as a JSON number: non-negative ones are unsigned. -/
def ofInt (n : Int) : Json := if 0 ≤ n then .num (.nat n.toNat) else .num (.neg n)

def ofNat (n : Nat) : Json := .num (.nat n)

def strs (xs : List String) : Json := .arr (xs.map .str)

def opt : Option Json → Json
  | some j => j
  | none => .null

/-- The value of the first member named `key`. -/
def field? (fields : List (String × Json)) (key : String) : Option Json :=
  (fields.find? (·.1 == key)).map (·.2)

def get? : Json → String → Option Json
  | .obj fields, key => field? fields key
  | _, _ => none

/-- Inserts a member into members sorted by key; a member of the same key is replaced. -/
def insertMember (k : String) (v : Json) : List (String × Json) → List (String × Json)
  | [] => [(k, v)]
  | (k', v') :: rest =>
    if k < k' then (k, v) :: (k', v') :: rest
    else if k = k' then (k, v) :: rest
    else (k', v') :: insertMember k v rest

mutual

/-- The value as a document of maps: every object's members sorted by key, the later of two
equal keys winning. -/
def sortKeys : Json → Json
  | .arr items => .arr (sortKeysItems items)
  | .obj fields => .obj ((sortKeysFields fields).foldl (fun acc m => insertMember m.1 m.2 acc) [])
  | j => j

def sortKeysItems : List Json → List Json
  | [] => []
  | j :: rest => sortKeys j :: sortKeysItems rest

def sortKeysFields : List (String × Json) → List (String × Json)
  | [] => []
  | (k, v) :: rest => (k, sortKeys v) :: sortKeysFields rest

end

end Json
end BrilFlow
