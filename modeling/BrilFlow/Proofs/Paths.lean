import BrilFlow.Proofs.Solve
import BrilFlow.Proofs.GenKill
import BrilFlow.Proofs.SetAnalyses

/-! Paths from the start and what a problem carries along them: for gen/kill problems the engine's
answer is the union, or the intersection, of what the paths to a block carry. -/
namespace BrilFlow

namespace Cfg

/-- A path from `start` along flow-out edges that passes the blocks `ns`, in order, and then
arrives at `n`. -/
inductive Path (g : Cfg) (d : Direction) (start : Nat) : List Nat → Nat → Prop
  | here : start < g.size → Path g d start [] start
  | step {ns : List Nat} {m n : Nat} : Path g d start ns m → n ∈ g.flowOut m d → n < g.size →
      Path g d start (ns ++ [m]) n

variable {g : Cfg} {d : Direction} {start : Nat}

theorem Path.reaches {ns : List Nat} {n : Nat} (path : g.Path d start ns n) :
    g.Reaches d start n := by
  induction path with
  | here lt => exact .start lt
  | step _ edge lt ih => exact .edge ih edge lt

theorem Reaches.exists_path {n : Nat} (reach : g.Reaches d start n) :
    ∃ ns, g.Path d start ns n := by
  induction reach with
  | start lt => exact ⟨[], .here lt⟩
  | edge _ edge lt ih =>
    obtain ⟨ns, path⟩ := ih
    exact ⟨_, .step path edge lt⟩

end Cfg

namespace Problem

variable {α : Type} (p : Problem α)

/-- What a path through the blocks `ns` carries out of the last of them. -/
def along (ns : List Nat) : α := ns.foldl (fun x n => p.transfer n x) p.init

@[simp] theorem along_nil : p.along [] = p.init := rfl

@[simp] theorem along_append_singleton (ns : List Nat) (m : Nat) :
    p.along (ns ++ [m]) = p.transfer m (p.along ns) := by
  simp [along]

end Problem

variable {β : Type} [Ord β]

namespace Problem

variable {p : Problem (List β)} {g : Cfg} {start n : Nat} {out : Nat → List β} {a : β}

theorem receives_of_union (init_nil : p.init = []) (merge_union : p.merge = Sorted.unionAll) :
    p.receives g start out n = Sorted.unionAll (p.incoming g start out n) := by
  unfold receives
  split
  · next alone => rw [init_nil, alone.2]; rfl
  · rw [merge_union]

theorem receives_of_inter {U : List β} (init_univ : p.init = U)
    (merge_inter : p.merge = fun xs => xs.foldl Sorted.inter U) :
    p.receives g start out n = (p.incoming g start out n).foldl Sorted.inter U := by
  unfold receives
  split
  · next alone => rw [init_univ, alone.2]; rfl
  · rw [merge_inter]

variable [Std.LawfulEqOrd β]

theorem mem_receives_of_union (init_nil : p.init = []) (merge_union : p.merge = Sorted.unionAll) :
    a ∈ p.receives g start out n ↔
      ∃ m ∈ g.flowIn n p.direction, g.Reaches p.direction start m ∧ a ∈ out m := by
  rw [receives_of_union init_nil merge_union, Sorted.mem_unionAll]
  simp [incoming, and_assoc]

theorem mem_receives_of_inter {U : List β} (init_univ : p.init = U)
    (merge_inter : p.merge = fun xs => xs.foldl Sorted.inter U) :
    a ∈ p.receives g start out n ↔
      a ∈ U ∧ ∀ m ∈ g.flowIn n p.direction, g.Reaches p.direction start m → a ∈ out m := by
  rw [receives_of_inter init_univ merge_inter, Sorted.mem_foldl_inter]
  simp only [incoming, List.forall_mem_map, List.mem_filter, decide_eq_true_eq, and_imp]

variable [DecidableEq β]

/-- For every configuration and every block reachable from the start, the engine's table holds
what flows into the block: the items that some path from the start carries there. -/
def UnionOverPaths (g : Cfg) (p : Problem (List β)) : Prop :=
  ∀ (config : EngineConfig) (n : Nat), g.Reaches p.direction (g.startOf p.direction) n →
    ∃ v, ((p.solve g config).received p)[n]?.join = some v ∧
      ∀ a, a ∈ v ↔ ∃ ns, g.Path p.direction (g.startOf p.direction) ns n ∧ a ∈ p.along ns

/-- For every configuration and every block reachable from the start, the engine's table holds
what flows into the block: the items that every path from the start carries there. -/
def InterOverPaths (g : Cfg) (p : Problem (List β)) : Prop :=
  ∀ (config : EngineConfig) (n : Nat), g.Reaches p.direction (g.startOf p.direction) n →
    ∃ v, ((p.solve g config).received p)[n]?.join = some v ∧
      ∀ a, a ∈ v ↔ ∀ ns, g.Path p.direction (g.startOf p.direction) ns n → a ∈ p.along ns

end Problem

namespace GenKill

open Problem

variable {p : Problem (List β)} {g : Cfg} {start : Nat} {U : List β}

open Classical in
/-- The items of `U` that some path from the start carries out of block `q`. -/
noncomputable def sentOnSomePath (g : Cfg) (p : Problem (List β)) (start : Nat) (U : List β)
    (q : Nat) : List β :=
  Sorted.ofList (U.filter fun a =>
    ∃ ns, g.Path p.direction start ns q ∧ a ∈ p.transfer q (p.along ns))

open Classical in
/-- The items of `U` that every path from the start carries out of block `q`. -/
noncomputable def sentOnEveryPath (g : Cfg) (p : Problem (List β)) (start : Nat) (U : List β)
    (q : Nat) : List β :=
  Sorted.ofList (U.filter fun a =>
    ∀ ns, g.Path p.direction start ns q → a ∈ p.transfer q (p.along ns))

variable (gk : GenKill p)

theorem along_subset (init_univ : p.init = U) (gen : ∀ n, gk.gen n ⊆ U) (ns : List Nat) :
    p.along ns ⊆ U :=
  foldl_induction (· ⊆ U) _ ns (init_univ ▸ List.Subset.refl _)
    fun _ sub n _ => gk.transfer_within gen sub n

theorem mem_along_of_union (init_nil : p.init = []) {ns : List Nat} {a : β} :
    a ∈ p.along ns ↔
      ∃ ns₁ m ns₂, ns = ns₁ ++ m :: ns₂ ∧ a ∈ gk.gen m ∧ ∀ k ∈ ns₂, a ∉ gk.kill k := by
  induction ns using List.reverseRecOn with
  | nil => simp [init_nil]
  | append_singleton ns x ih =>
    rw [along_append_singleton, gk.mem_transfer, ih]
    constructor
    · rintro (generated | ⟨⟨ns₁, m, ns₂, rfl, generated, kept⟩, alive⟩)
      · exact ⟨ns, x, [], rfl, generated, by simp⟩
      · refine ⟨ns₁, m, ns₂ ++ [x], by simp, generated, fun k hk => ?_⟩
        rcases List.mem_append.mp hk with hk | hk
        · exact kept k hk
        · rw [List.mem_singleton.mp hk]
          exact alive
    · rintro ⟨ns₁, m, ns₂, split, generated, kept⟩
      -- either the generating block is the last one, or the last one comes after it
      rcases List.eq_nil_or_concat ns₂ with rfl | ⟨ns₂, y, rfl⟩
      · obtain ⟨rfl, last⟩ := List.append_inj' split rfl
        rw [List.singleton_inj.mp last]
        exact .inl generated
      · rw [List.concat_eq_append, ← List.cons_append, ← List.append_assoc] at split
        obtain ⟨rfl, last⟩ := List.append_inj' split rfl
        rw [List.singleton_inj.mp last]
        exact .inr ⟨⟨ns₁, m, ns₂, rfl, generated, fun k hk => kept k (by simp [hk])⟩,
          kept y (by simp)⟩

variable [Std.LawfulEqOrd β]

theorem mem_sentOnSomePath {q : Nat} {a : β} :
    a ∈ sentOnSomePath g p start U q ↔
      a ∈ U ∧ ∃ ns, g.Path p.direction start ns q ∧ a ∈ p.transfer q (p.along ns) := by
  simp [sentOnSomePath]

theorem mem_sentOnEveryPath {q : Nat} {a : β} :
    a ∈ sentOnEveryPath g p start U q ↔
      a ∈ U ∧ ∀ ns, g.Path p.direction start ns q → a ∈ p.transfer q (p.along ns) := by
  simp [sentOnEveryPath]

theorem exists_path_of_mem_sentOnSomePath (hg : g.WellFormed) {m n : Nat} {a : β}
    (sent : a ∈ sentOnSomePath g p start U m) (edge : m ∈ g.flowIn n p.direction)
    (lt : n < g.size) : ∃ ns, g.Path p.direction start ns n ∧ a ∈ p.along ns := by
  obtain ⟨-, ns, path, carried⟩ := mem_sentOnSomePath.mp sent
  refine ⟨ns ++ [m], .step path (hg.mem_flowIn.mp edge) lt, ?_⟩
  rwa [along_append_singleton]

theorem mem_sentOnEveryPath_of_forall (hg : g.WellFormed) {m n : Nat} {a : β} (inU : a ∈ U)
    (every : ∀ ns, g.Path p.direction start ns n → a ∈ p.along ns)
    (edge : m ∈ g.flowIn n p.direction) (lt : n < g.size) :
    a ∈ sentOnEveryPath g p start U m := by
  refine mem_sentOnEveryPath.mpr ⟨inU, fun ns path => ?_⟩
  have := every (ns ++ [m]) (.step path (hg.mem_flowIn.mp edge) lt)
  rwa [along_append_singleton] at this

section Union

variable (init_nil : p.init = []) (merge_union : p.merge = Sorted.unionAll)
include gk init_nil merge_union

theorem along_subset_of_solves (hg : g.WellFormed) {IN OUT : Nat → List β}
    (sol : p.Solves g start IN OUT) {ns : List Nat} {n : Nat}
    (path : g.Path p.direction start ns n) : p.along ns ⊆ IN n := by
  induction path with
  | here _ => rw [along_nil, init_nil]; exact List.nil_subset _
  | @step ns m n path edge lt ih =>
    intro a carried
    rw [along_append_singleton] at carried
    have sent : a ∈ OUT m := by
      rw [sol.output m path.reaches]
      exact gk.transfer_subset ih m carried
    rw [sol.input n (.edge path.reaches edge lt), mem_receives_of_union init_nil merge_union]
    exact ⟨m, hg.mem_flowIn.mpr edge, path.reaches, sent⟩

theorem closed_sentOnSomePath [Std.TransOrd β] (hg : g.WellFormed) (gen : ∀ n, gk.gen n ⊆ U)
    (height : U.length ≤ p.height) :
    (gk.unionFramework U init_nil merge_union gen height).Closed g start
      (sentOnSomePath g p start U) := by
  intro q reach
  refine ⟨Sorted.canon_ofList _, fun a ha => ?_⟩
  rcases (gk.mem_transfer q _ a).mp ha with generated | ⟨received, alive⟩
  · obtain ⟨ns, path⟩ := reach.exists_path
    exact mem_sentOnSomePath.mpr
      ⟨gen q generated, ns, path, (gk.mem_transfer q _ a).mpr (.inl generated)⟩
  · obtain ⟨m, edge, -, sent⟩ := (mem_receives_of_union init_nil merge_union).mp received
    obtain ⟨ns, path, carried⟩ := exists_path_of_mem_sentOnSomePath hg sent edge reach.lt_size
    exact mem_sentOnSomePath.mpr ⟨(mem_sentOnSomePath.mp sent).1, ns, path,
      (gk.mem_transfer q _ a).mpr (.inr ⟨carried, alive⟩)⟩

/-- Merged by union from the empty set, the engine's answer is the union over all paths. -/
theorem unionOverPaths [Std.TransOrd β] [DecidableEq β] (hg : g.WellFormed)
    (gen : ∀ n, gk.gen n ⊆ U) (height : U.length ≤ p.height) : p.UnionOverPaths g := by
  intro config n reach
  obtain ⟨IN, OUT, sol, holds, below⟩ :=
    solve_holds_below (gk.unionFramework U init_nil merge_union gen height) hg config
  refine ⟨IN n, holds.received n reach, fun a => ⟨fun received => ?_, ?_⟩⟩
  · -- an item received is sent by a reachable flow-in neighbour, so carried by a path to it
    rw [sol.input n reach, mem_receives_of_union init_nil merge_union] at received
    obtain ⟨m, edge, reach_m, sent⟩ := received
    have onPath := below _ (gk.closed_sentOnSomePath init_nil merge_union hg gen height) m
      reach_m sent
    exact exists_path_of_mem_sentOnSomePath hg onPath edge reach.lt_size
  · rintro ⟨ns, path, carried⟩
    exact gk.along_subset_of_solves init_nil merge_union hg sol path carried

end Union

section Inter

variable (init_univ : p.init = U) (merge_inter : p.merge = fun xs => xs.foldl Sorted.inter U)
include gk init_univ merge_inter

theorem received_subset_along_of_solves (hg : g.WellFormed) {IN OUT : Nat → List β}
    (sol : p.Solves g start IN OUT) {ns : List Nat} {n : Nat}
    (path : g.Path p.direction start ns n) : IN n ⊆ p.along ns := by
  induction path with
  | here lt =>
    intro a received
    rw [sol.input _ (.start lt), mem_receives_of_inter init_univ merge_inter] at received
    rw [along_nil, init_univ]
    exact received.1
  | @step ns m n path edge lt ih =>
    intro a received
    rw [sol.input n (.edge path.reaches edge lt), mem_receives_of_inter init_univ merge_inter]
      at received
    have sent : a ∈ OUT m := received.2 m (hg.mem_flowIn.mpr edge) path.reaches
    rw [sol.output m path.reaches] at sent
    rw [along_append_singleton]
    exact gk.transfer_subset ih m sent

theorem closed_sentOnEveryPath [Std.TransOrd β] (hg : g.WellFormed) (canonU : Sorted.Canon U)
    (gen : ∀ n, gk.gen n ⊆ U) (height : U.length ≤ p.height) :
    (gk.interFramework U canonU init_univ merge_inter gen height).Closed g start
      (sentOnEveryPath g p start U) := by
  intro q reach
  refine ⟨⟨Sorted.canon_ofList _, fun a ha => (mem_sentOnEveryPath.mp ha).1⟩, fun a ha => ?_⟩
  obtain ⟨inU, every⟩ := mem_sentOnEveryPath.mp ha
  rw [gk.mem_transfer]
  by_cases generated : a ∈ gk.gen q
  · exact .inl generated
  -- off the generated items, what every path carries out of `q` it carries into `q`
  have carried_in : ∀ ns, g.Path p.direction start ns q → a ∈ p.along ns ∧ a ∉ gk.kill q := by
    intro ns path
    rcases (gk.mem_transfer q _ a).mp (every ns path) with generated' | kept
    · exact absurd generated' generated
    · exact kept
  obtain ⟨ns, path⟩ := reach.exists_path
  refine .inr ⟨(mem_receives_of_inter init_univ merge_inter).mpr ⟨inU, fun m edge _ => ?_⟩,
    (carried_in ns path).2⟩
  exact mem_sentOnEveryPath_of_forall hg inU (fun ns path => (carried_in ns path).1) edge
    reach.lt_size

/-- Merged by intersection from a universe, the engine's answer is the intersection over all
paths. -/
theorem interOverPaths [Std.TransOrd β] [DecidableEq β] (hg : g.WellFormed)
    (canonU : Sorted.Canon U) (gen : ∀ n, gk.gen n ⊆ U) (height : U.length ≤ p.height) :
    p.InterOverPaths g := by
  intro config n reach
  obtain ⟨IN, OUT, sol, holds, below⟩ :=
    solve_holds_below (gk.interFramework U canonU init_univ merge_inter gen height) hg config
  refine ⟨IN n, holds.received n reach, fun a => ⟨fun received ns path => ?_, fun every => ?_⟩⟩
  · exact gk.received_subset_along_of_solves init_univ merge_inter hg sol path received
  · -- every reachable flow-in neighbour sends what every path carries out of it
    obtain ⟨ns, path⟩ := reach.exists_path
    have inU := gk.along_subset init_univ gen ns (every ns path)
    rw [sol.input n reach, mem_receives_of_inter init_univ merge_inter]
    refine ⟨inU, fun m edge reach_m => ?_⟩
    exact below _ (gk.closed_sentOnEveryPath init_univ merge_inter hg canonU gen height) m reach_m
      (mem_sentOnEveryPath_of_forall hg inU every edge reach.lt_size)

end Inter

end GenKill

end BrilFlow
