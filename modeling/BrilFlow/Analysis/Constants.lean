import BrilFlow.Analysis.Problem

/-! Constant propagation: forwards, a known literal or "unknown" per variable. Merging keeps a
literal all environments having the variable agree on (by kind and bits), and a block writes the
literal of each `const` and "unknown" for every other destination. -/
namespace BrilFlow

/-- A constant environment: variables in increasing order with their constants. -/
abbrev ConstEnv := List (String × ConstValue)

namespace ConstEnv

def get? (env : ConstEnv) (k : String) : Option ConstValue := (env.find? (·.1 == k)).map (·.2)

/-- Sets the constant of a variable, keeping variables in order. -/
def set (k : String) (v : ConstValue) : ConstEnv → ConstEnv
  | [] => [(k, v)]
  | (k', v') :: rest =>
    if k < k' then (k, v) :: (k', v') :: rest
    else if k = k' then (k, v) :: rest
    else (k', v') :: set k v rest

def mergeEntry (out : ConstEnv) (e : String × ConstValue) : ConstEnv :=
  match out.get? e.1 with
  | none => set e.1 e.2 out
  | some existing => if existing = e.2 then out else set e.1 .unknown out

def mergeAll (envs : List ConstEnv) : ConstEnv :=
  envs.foldl (fun out env => env.foldl mergeEntry out) []

def step (env : ConstEnv) (o : Operation) : ConstEnv :=
  match o.dest with
  | none => env
  | some d =>
    match o.value, o.isConst with
    | some l, true => set d (.known l) env
    | _, _ => set d .unknown env

end ConstEnv

def constantsProblem (g : Cfg) : Problem ConstEnv where
  direction := .forward
  init := []
  empty := []
  merge := ConstEnv.mergeAll
  transfer := fun i input =>
    match g.block? i with
    | some b => b.ops.foldl ConstEnv.step input
    | none => input
  view := .map
  height := 2 * g.weight + 1

end BrilFlow
