import Mathlib
import BrilFlow.Proofs.GenKill
import BrilFlow.Proofs.LastWrites
import BrilFlow.Analysis.Defined
import BrilFlow.Analysis.Live
import BrilFlow.Analysis.Reaching
import BrilFlow.Analysis.Available

/-! The four set analyses as gen/kill problems. Every item they collect is drawn from a
universe of the function: its variables for defined and live variables, its definition sites for
reaching definitions, its expressions for available expressions. Each universe has at most as
many members as the graph's weight, which bounds the problems' heights. -/
namespace BrilFlow

def Operation.weight (o : Operation) : Nat := 1 + o.args.length + (if o.dest.isSome then 1 else 0)

theorem Cfg.weight_eq (g : Cfg) :
    g.weight = (g.blocks.toList.map fun nb => (nb.block.ops.map Operation.weight).sum).sum := rfl

/-- Items collected block by block, at most as many per block as the block weighs, are at most
as many as the graph weighs. -/
theorem Cfg.length_flatMap_le_weight {β : Type} (g : Cfg) (f : NamedBlock → List β)
    (light : ∀ nb, (f nb).length ≤ (nb.block.ops.map Operation.weight).sum) :
    (g.blocks.toList.flatMap f).length ≤ g.weight := by
  rw [List.length_flatMap, g.weight_eq]
  exact List.sum_le_sum fun nb _ => light nb

theorem length_le_weight (ops : List Operation) : ops.length ≤ (ops.map Operation.weight).sum := by
  induction ops with
  | nil => simp
  | cons o ops ih =>
    simp only [List.length_cons, List.map_cons, List.sum_cons, Operation.weight]
    omega

theorem foldl_induction {γ δ : Type} (P : γ → Prop) (f : γ → δ → γ) (l : List δ) {init : γ}
    (start : P init) (step : ∀ acc, P acc → ∀ x ∈ l, P (f acc x)) : P (l.foldl f init) := by
  induction l generalizing init with
  | nil => exact start
  | cons x xs ih =>
    exact ih (step init start x List.mem_cons_self)
      fun acc h y hy => step acc h y (List.mem_cons_of_mem _ hy)

section Names

open Sorted

def Block.defsStep (acc : List String) (o : Operation) : List String :=
  (o.dest.map (Block.insertName · acc)).getD acc

def Block.exposedStep (acc : List String × List String) (o : Operation) :
    List String × List String :=
  ((o.dest.map (Block.insertName · acc.1)).getD acc.1,
    o.args.foldl (fun u a => if acc.1.contains a then u else Block.insertName a u) acc.2)

theorem Block.defs_eq (b : Block) : b.defs = b.ops.foldl Block.defsStep [] := by
  unfold Block.defs Block.defsStep
  congr
  funext acc o
  cases o.dest <;> rfl

theorem Block.upwardExposed_eq (b : Block) :
    b.upwardExposed = (b.ops.foldl Block.exposedStep ([], [])).2 := by
  unfold Block.upwardExposed Block.exposedStep
  dsimp only
  congr
  funext acc o
  cases o.dest <;> rfl

theorem mem_foldl_defsStep {a : String} {acc : List String} {ops : List Operation} :
    a ∈ ops.foldl Block.defsStep acc ↔ a ∈ acc ∨ ∃ o ∈ ops, o.dest = some a := by
  induction ops generalizing acc with
  | nil => simp
  | cons o ops ih =>
    rw [List.foldl_cons, ih, Block.defsStep]
    cases h : o.dest with
    | none => simp [h]
    | some d =>
      simp only [Option.map_some, Option.getD_some, Block.insertName_eq_insert, mem_insert,
        List.mem_cons, exists_eq_or_imp, h, Option.some.injEq]
      tauto

theorem canon_foldl_defsStep {acc : List String} (ops : List Operation) (h : Canon acc) :
    Canon (ops.foldl Block.defsStep acc) := by
  induction ops generalizing acc with
  | nil => exact h
  | cons o ops ih =>
    rw [List.foldl_cons]
    apply ih
    rw [Block.defsStep]
    cases o.dest with
    | none => exact h
    | some d =>
      rw [Option.map_some, Option.getD_some, Block.insertName_eq_insert]
      exact canon_insert d h

theorem Block.mem_defs {b : Block} {a : String} : a ∈ b.defs ↔ ∃ o ∈ b.ops, o.dest = some a := by
  simp [Block.defs_eq, mem_foldl_defsStep]

theorem Block.canon_defs (b : Block) : Canon b.defs := by
  rw [Block.defs_eq]
  exact canon_foldl_defsStep b.ops canon_nil

theorem exposed_reads (defined : List String) (args : List String) :
    ∀ used : List String, Canon used →
      Canon (args.foldl (fun u a => if defined.contains a then u else Block.insertName a u) used) ∧
      ∀ a ∈ args.foldl (fun u a => if defined.contains a then u else Block.insertName a u) used,
        a ∈ used ∨ a ∈ args := by
  induction args with
  | nil => simp
  | cons x xs ih =>
    intro used canon
    rw [List.foldl_cons]
    split
    · obtain ⟨c, m⟩ := ih used canon
      exact ⟨c, fun a ha => (m a ha).imp_right (List.mem_cons_of_mem _)⟩
    · obtain ⟨c, m⟩ := ih _ (Block.insertName_eq_insert x used ▸ canon_insert x canon)
      refine ⟨c, fun a ha => ?_⟩
      rcases m a ha with h | h
      · rw [Block.insertName_eq_insert, mem_insert] at h
        rcases h with rfl | h
        · exact .inr List.mem_cons_self
        · exact .inl h
      · exact .inr (List.mem_cons_of_mem _ h)

theorem foldl_exposedStep (ops : List Operation) :
    ∀ acc : List String × List String, Canon acc.2 →
      Canon (ops.foldl Block.exposedStep acc).2 ∧
      ∀ a ∈ (ops.foldl Block.exposedStep acc).2, a ∈ acc.2 ∨ ∃ o ∈ ops, a ∈ o.args := by
  induction ops with
  | nil => simp
  | cons o ops ih =>
    intro acc canon
    rw [List.foldl_cons]
    obtain ⟨c, m⟩ := exposed_reads acc.1 o.args acc.2 canon
    obtain ⟨c', m'⟩ := ih (Block.exposedStep acc o) c
    refine ⟨c', fun a ha => ?_⟩
    rcases m' a ha with h | ⟨o', ho', h⟩
    · rcases m a h with h | h
      · exact .inl h
      · exact .inr ⟨o, List.mem_cons_self, h⟩
    · exact .inr ⟨o', List.mem_cons_of_mem _ ho', h⟩

/-- The names a block reads before writing are sorted, and each is an argument of one of its
operations. -/
theorem Block.upwardExposed_spec (b : Block) :
    Canon b.upwardExposed ∧ ∀ a ∈ b.upwardExposed, ∃ o ∈ b.ops, a ∈ o.args := by
  obtain ⟨canon, mem⟩ := foldl_exposedStep b.ops ([], []) canon_nil
  rw [Block.upwardExposed_eq]
  exact ⟨canon, fun a ha => by simpa using mem a ha⟩

end Names

namespace Cfg

def varNames (g : Cfg) : List String :=
  g.blocks.toList.flatMap fun nb => nb.block.ops.flatMap fun o => o.dest.toList ++ o.args

theorem length_varNames_le (g : Cfg) : g.varNames.length ≤ g.weight := by
  apply g.length_flatMap_le_weight
  intro nb
  rw [List.length_flatMap]
  apply List.sum_le_sum
  intro o _
  cases o.dest <;> simp [Operation.weight] <;> omega

theorem mem_varNames {g : Cfg} {i : Nat} {b : Block} (block : g.block? i = some b) {o : Operation}
    (mem : o ∈ b.ops) {a : String} (touches : o.dest = some a ∨ a ∈ o.args) :
    a ∈ g.varNames := by
  obtain ⟨nb, get, rfl⟩ := Option.map_eq_some_iff.mp block
  refine List.mem_flatMap.mpr ⟨nb, Array.mem_toList_iff.mpr (Array.mem_of_getElem? get), ?_⟩
  refine List.mem_flatMap.mpr ⟨o, mem, ?_⟩
  rcases touches with h | h
  · simp [h]
  · simp [h]

end Cfg

def definedGenKill (g : Cfg) : GenKill (definedProblem g) where
  gen i := ((g.block? i).map Block.defs).getD []
  kill _ := []
  mem_transfer _ _ _ := by
    simp only [definedProblem, Sorted.mem_union, List.not_mem_nil, not_false_eq_true, and_true]
    tauto
  canon_transfer _ _ h := Sorted.canon_union _ h

theorem definedGenKill_gen_subset (g : Cfg) (i : Nat) :
    (definedGenKill g).gen i ⊆ g.varNames := by
  intro a ha
  simp only [definedGenKill] at ha
  cases block : g.block? i with
  | none => simp [block] at ha
  | some b =>
    rw [block, Option.map_some, Option.getD_some, Block.mem_defs] at ha
    obtain ⟨o, mem, dest⟩ := ha
    exact Cfg.mem_varNames block mem (.inl dest)

/-- Live variables: a block adds what it reads before writing and removes what it writes. -/
def liveGenKill (g : Cfg) : GenKill (liveProblem g) where
  gen i := ((g.block? i).map Block.upwardExposed).getD []
  kill i := ((g.block? i).map Block.defs).getD []
  mem_transfer i _ _ := by
    cases h : g.block? i <;> simp [liveProblem, h]
  canon_transfer i _ h := by
    simp only [liveProblem]
    split
    · exact Sorted.canon_union _ (Block.upwardExposed_spec _).1
    · exact h

theorem liveGenKill_gen_subset (g : Cfg) (i : Nat) :
    (liveGenKill g).gen i ⊆ g.varNames := by
  intro a ha
  simp only [liveGenKill] at ha
  cases block : g.block? i with
  | none => simp [block] at ha
  | some b =>
    rw [block, Option.map_some, Option.getD_some] at ha
    obtain ⟨o, mem, arg⟩ := (Block.upwardExposed_spec b).2 a ha
    exact Cfg.mem_varNames block mem (.inr arg)

def definedFramework (g : Cfg) : (definedProblem g).Framework :=
  (definedGenKill g).unionFramework g.varNames rfl rfl (definedGenKill_gen_subset g)
    (Nat.le_succ_of_le g.length_varNames_le)

def liveFramework (g : Cfg) : (liveProblem g).Framework :=
  (liveGenKill g).unionFramework g.varNames rfl rfl (liveGenKill_gen_subset g)
    (Nat.le_succ_of_le g.length_varNames_le)

end BrilFlow

namespace BrilFlow

def Cfg.sites (g : Cfg) : List DefSite := g.blocks.toList.flatMap sitesOf

theorem Cfg.length_sites_le (g : Cfg) : g.sites.length ≤ g.weight :=
  g.length_flatMap_le_weight _ fun nb =>
    calc (sitesOf nb).length ≤ nb.block.ops.zipIdx.length := List.length_filterMap_le _ _
      _ = nb.block.ops.length := List.length_zipIdx
      _ ≤ _ := length_le_weight _

/-- Reaching definitions: a block kills the other sites of the variables it writes and generates
its last write of each. -/
def reachingGenKill (g : Cfg) : GenKill (reachingProblem g) where
  gen i := (reachingGen g)[i]?.getD []
  kill i := (reachingKill g)[i]?.getD []
  mem_transfer _ _ _ := by
    simp only [reachingProblem, Sorted.mem_union, Sorted.mem_diff]
    tauto
  canon_transfer _ _ h := Sorted.canon_union _ (Sorted.canon_diff _ h)

theorem reachingGenKill_gen_subset (g : Cfg) (i : Nat) :
    (reachingGenKill g).gen i ⊆ g.sites := by
  intro d hd
  simp only [reachingGenKill, reachingGen, Array.getElem?_map] at hd
  cases get : g.blocks[i]? with
  | none => simp [get] at hd
  | some nb =>
    simp only [get, Option.map_some, Option.getD_some] at hd
    exact List.mem_flatMap.mpr ⟨nb, Array.mem_toList_iff.mpr (Array.mem_of_getElem? get),
      lastSites_subset_sitesOf nb hd⟩

def reachingFramework (g : Cfg) : (reachingProblem g).Framework :=
  (reachingGenKill g).unionFramework g.sites rfl rfl (reachingGenKill_gen_subset g)
    (Nat.le_succ_of_le g.length_sites_le)

theorem length_exprUniverse_le (g : Cfg) : (exprUniverse g).length ≤ g.weight :=
  (Sorted.length_ofList_le _).trans (g.length_flatMap_le_weight _ fun _ =>
    (List.length_filterMap_le _ _).trans (length_le_weight _))

theorem exists_of_mem_generatedExprs {b : Block} {e : Expr} (mem : e ∈ generatedExprs b) :
    ∃ o ∈ b.ops, Expr.ofOperation? o = some e := by
  unfold generatedExprs at mem
  refine foldl_induction
    (fun acc : List Expr × List String => ∀ e ∈ acc.1, ∃ o ∈ b.ops, Expr.ofOperation? o = some e)
    _ _
    (by simp) (fun acc computed o ho => ?_) e mem
  intro e he
  cases computes : Expr.ofOperation? o with
  | none => simp only [computes] at he; exact computed e he
  | some e' =>
    simp only [computes] at he
    split_ifs at he
    · exact computed e he
    · rcases Sorted.mem_insert.mp he with rfl | he
      · exact ⟨o, List.mem_reverse.mp ho, computes⟩
      · exact computed e he

/-- Available expressions: a block kills the expressions mentioning a variable it writes and
generates those it computes and keeps. -/
def availableGenKill (g : Cfg) : GenKill (availableProblem g) where
  gen i := (availableGen g)[i]?.getD []
  kill i := (availableKill g)[i]?.getD []
  mem_transfer _ _ _ := by
    simp only [availableProblem, Sorted.mem_union, Sorted.mem_diff]
    tauto
  canon_transfer _ _ h := Sorted.canon_union _ (Sorted.canon_diff _ h)

theorem availableGenKill_gen_subset (g : Cfg) (i : Nat) :
    (availableGenKill g).gen i ⊆ exprUniverse g := by
  intro e he
  simp only [availableGenKill, availableGen, Array.getElem?_map] at he
  cases get : g.blocks[i]? with
  | none => simp [get] at he
  | some nb =>
    simp only [get, Option.map_some, Option.getD_some] at he
    obtain ⟨o, ho, computes⟩ := exists_of_mem_generatedExprs he
    refine Sorted.mem_ofList.mpr (List.mem_flatMap.mpr ⟨nb,
      Array.mem_toList_iff.mpr (Array.mem_of_getElem? get), ?_⟩)
    exact List.mem_filterMap.mpr ⟨o, ho, computes⟩

/-- The framework of available expressions: sets of the function's expressions by reverse
inclusion. -/
def availableFramework (g : Cfg) : (availableProblem g).Framework :=
  (availableGenKill g).interFramework (exprUniverse g) (Sorted.canon_ofList _) rfl rfl
    (availableGenKill_gen_subset g) (Nat.le_succ_of_le (length_exprUniverse_le g))

end BrilFlow
