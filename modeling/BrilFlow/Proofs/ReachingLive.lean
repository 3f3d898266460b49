import BrilFlow.Proofs.Paths

/-! Reaching definitions and live variables read along paths, from the meet over all paths and the
gen/kill reading of a path. -/
namespace BrilFlow

theorem exists_last_split {γ : Type} (P : γ → Prop) (l : List γ) :
    (∀ x ∈ l, ¬P x) ∨ ∃ l₁ x l₂, l = l₁ ++ x :: l₂ ∧ P x ∧ ∀ y ∈ l₂, ¬P y := by
  induction l using List.reverseRecOn with
  | nil => exact .inl (by simp)
  | append_singleton l x ih =>
    by_cases last : P x
    · exact .inr ⟨l, x, [], rfl, last, by simp⟩
    · rcases ih with none | ⟨l₁, y, l₂, rfl, hy, after⟩
      · refine .inl fun y hy => ?_
        rcases List.mem_append.mp hy with hy | hy
        · exact none y hy
        · rw [List.mem_singleton.mp hy]
          exact last
      · refine .inr ⟨l₁, y, l₂ ++ [x], by simp, hy, fun z hz => ?_⟩
        rcases List.mem_append.mp hz with hz | hz
        · exact after z hz
        · rw [List.mem_singleton.mp hz]
          exact last

theorem exists_split_cons {γ : Type} {Q : List γ → γ → Prop} {y : γ} {l : List γ} :
    (∃ pre x post, y :: l = pre ++ x :: post ∧ Q pre x) ↔
      Q [] y ∨ ∃ pre x post, l = pre ++ x :: post ∧ Q (y :: pre) x := by
  constructor
  · rintro ⟨pre, x, post, split, q⟩
    cases pre with
    | nil =>
      obtain ⟨rfl, rfl⟩ := List.cons.inj split
      exact .inl q
    | cons z pre =>
      obtain ⟨rfl, rfl⟩ := List.cons.inj split
      exact .inr ⟨pre, x, post, rfl, q⟩
  · rintro (q | ⟨pre, x, post, rfl, q⟩)
    · exact ⟨[], y, l, rfl, q⟩
    · exact ⟨y :: pre, x, post, rfl, q⟩

namespace Block

def Writes (b : Block) (v : String) : Prop := ∃ o ∈ b.ops, o.dest = some v

/-- Some operation of the block reads `v`, and none before it writes `v`. -/
def ReadsFirst (b : Block) (v : String) : Prop :=
  ∃ pre o post, b.ops = pre ++ o :: post ∧ v ∈ o.args ∧ ∀ o' ∈ pre, o'.dest ≠ some v

variable {b : Block} {v : String}

theorem writes_iff : b.Writes v ↔ ∃ i, b.WritesAt v i := by
  simp only [Writes, WritesAt, List.mem_iff_getElem?]
  constructor
  · rintro ⟨o, ⟨i, get⟩, dest⟩
    exact ⟨i, o, get, dest⟩
  · rintro ⟨i, o, get, dest⟩
    exact ⟨o, ⟨i, get⟩, dest⟩

theorem WritesAt.lt_length {i : Nat} (h : b.WritesAt v i) : i < b.ops.length := by
  obtain ⟨o, get, -⟩ := h
  exact (List.getElem?_eq_some_iff.mp get).1

theorem exists_lastWrite {i : Nat} (h : b.WritesAt v i) : ∃ j, b.LastWrite v j := by
  -- climb to later writes; the distance to the end of the block falls each time
  induction hk : b.ops.length - i using Nat.strong_induction_on generalizing i with
  | _ k ih =>
    by_cases later : ∃ j, i < j ∧ b.WritesAt v j
    · obtain ⟨j, lt, hj⟩ := later
      have within := hj.lt_length
      exact ih (b.ops.length - j) (by omega) hj rfl
    · refine ⟨i, h, fun j hj => ?_⟩
      by_contra beyond
      exact later ⟨j, by omega, hj⟩

open Sorted in
theorem mem_foldl_reads {defined used args : List String} {a : String} :
    a ∈ args.foldl (fun u x => if defined.contains x then u else Block.insertName x u) used ↔
      a ∈ used ∨ (a ∈ args ∧ a ∉ defined) := by
  induction args generalizing used with
  | nil => simp
  | cons x xs ih =>
    rw [List.foldl_cons, ih]
    split
    · next known =>
      have : x ∈ defined := List.contains_iff_mem.mp known
      constructor
      · rintro (h | ⟨h, out⟩)
        · exact .inl h
        · exact .inr ⟨List.mem_cons_of_mem _ h, out⟩
      · rintro (h | ⟨h, out⟩)
        · exact .inl h
        · rcases List.mem_cons.mp h with rfl | h
          · exact absurd this out
          · exact .inr ⟨h, out⟩
    · next fresh =>
      have : x ∉ defined := fun h => fresh (List.contains_iff_mem.mpr h)
      rw [Block.insertName_eq_insert, mem_insert, List.mem_cons]
      constructor
      · rintro ((rfl | h) | ⟨h, out⟩)
        · exact .inr ⟨.inl rfl, this⟩
        · exact .inl h
        · exact .inr ⟨.inr h, out⟩
      · rintro (h | ⟨rfl | h, out⟩)
        · exact .inl (.inr h)
        · exact .inl (.inl rfl)
        · exact .inr ⟨h, out⟩

theorem mem_exposedStep_fst {acc : List String × List String} {o : Operation} {a : String} :
    a ∈ (exposedStep acc o).1 ↔ a ∈ acc.1 ∨ o.dest = some a := by
  unfold exposedStep
  cases o.dest with
  | none => simp
  | some d => simp [Block.insertName_eq_insert, eq_comm, or_comm]

theorem mem_foldl_exposedStep {ops : List Operation} {acc : List String × List String}
    {a : String} :
    a ∈ (ops.foldl exposedStep acc).2 ↔ a ∈ acc.2 ∨
      (a ∉ acc.1 ∧ ∃ pre o post, ops = pre ++ o :: post ∧ a ∈ o.args ∧
        ∀ o' ∈ pre, o'.dest ≠ some a) := by
  induction ops generalizing acc with
  | nil => simp
  | cons o ops ih =>
    rw [List.foldl_cons, ih, exists_split_cons, mem_exposedStep_fst]
    simp only [exposedStep, mem_foldl_reads, List.not_mem_nil, List.forall_mem_cons,
      IsEmpty.forall_iff, implies_true, and_true]
    tauto

theorem mem_upwardExposed : v ∈ b.upwardExposed ↔ b.ReadsFirst v := by
  rw [upwardExposed_eq, mem_foldl_exposedStep]
  simp [ReadsFirst]

end Block

namespace Cfg

def Writes (g : Cfg) (k : Nat) (v : String) : Prop := ∃ b, g.block? k = some b ∧ b.Writes v

/-- Block `k` of the graph reads `v` before writing it. -/
def ReadsFirst (g : Cfg) (k : Nat) (v : String) : Prop :=
  ∃ b, g.block? k = some b ∧ b.ReadsFirst v

/-- Block `k` of the graph is named as in the site, and its last write of the site's variable is
the site's operation. -/
def LastWriteSite (g : Cfg) (k : Nat) (d : DefSite) : Prop :=
  ∃ nb, g.blocks[k]? = some nb ∧ nb.name = d.block ∧ nb.block.LastWrite d.var d.index

end Cfg

section Reaching

variable {g : Cfg} {k : Nat} {d : DefSite}

theorem mem_reachingGen : d ∈ (reachingGenKill g).gen k ↔ g.LastWriteSite k d := by
  simp only [reachingGenKill, reachingGen, Array.getElem?_map, Cfg.LastWriteSite]
  cases g.blocks[k]? with
  | none => simp
  | some nb =>
    simp only [Option.map_some, Option.getD_some, mem_lastSites, Option.some.injEq,
      exists_eq_left']
    constructor <;> rintro ⟨name, last⟩ <;> exact ⟨name.symm, last⟩

theorem mem_reachingKill : d ∈ (reachingGenKill g).kill k ↔
    d ∈ g.sites ∧ ∃ s ∈ (reachingGenKill g).gen k, s.var = d.var ∧ s ≠ d := by
  simp only [reachingGenKill, reachingKill, reachingGen, Array.getElem?_map, Cfg.sites]
  cases g.blocks[k]? with
  | none => simp
  | some nb =>
    simp only [Option.map_some, Option.getD_some, killedSites, Sorted.mem_ofList,
      List.mem_filter, List.any_eq_true, Bool.and_eq_true, beq_iff_eq, Bool.not_eq_true',
      beq_eq_false_iff_ne, ne_eq, Std.compare_eq_iff_eq]

theorem Cfg.LastWriteSite.writes (site : g.LastWriteSite k d) : g.Writes k d.var := by
  obtain ⟨nb, get, -, writes, -⟩ := site
  exact ⟨nb.block, by simp [Cfg.block?, get], Block.writes_iff.mpr ⟨_, writes⟩⟩

theorem writes_of_mem_reachingKill (killed : d ∈ (reachingGenKill g).kill k) :
    g.Writes k d.var := by
  obtain ⟨-, s, generated, same, -⟩ := mem_reachingKill.mp killed
  exact same ▸ (mem_reachingGen.mp generated).writes

/-- A site of the function that a block writing its variable does not kill is the block's own
last write of it. -/
theorem mem_reachingGen_of_writes (site : d ∈ g.sites) (writes : g.Writes k d.var)
    (kept : d ∉ (reachingGenKill g).kill k) : d ∈ (reachingGenKill g).gen k := by
  obtain ⟨b, block, writesB⟩ := writes
  obtain ⟨nb, get, rfl⟩ := Option.map_eq_some_iff.mp block
  obtain ⟨i, at_i⟩ := Block.writes_iff.mp writesB
  obtain ⟨j, last⟩ := Block.exists_lastWrite at_i
  have generated : ⟨d.var, nb.name, j⟩ ∈ (reachingGenKill g).gen k :=
    mem_reachingGen.mpr ⟨nb, get, rfl, last⟩
  by_contra other
  exact kept (mem_reachingKill.mpr ⟨site, _, generated, rfl, fun same => other (same ▸ generated)⟩)

end Reaching

section Live

variable {g : Cfg} {k : Nat} {x : String}

theorem mem_liveGen : x ∈ (liveGenKill g).gen k ↔ g.ReadsFirst k x := by
  simp only [liveGenKill, Cfg.ReadsFirst]
  cases g.block? k with
  | none => simp
  | some b => simp [Block.mem_upwardExposed]

theorem mem_liveKill : x ∈ (liveGenKill g).kill k ↔ g.Writes k x := by
  simp only [liveGenKill, Cfg.Writes]
  cases g.block? k with
  | none => simp
  | some b => simp [Block.mem_defs, Block.Writes]

end Live

namespace Cfg

/-- For every configuration and every block reachable from the entry, the engine's input table
holds the sites some path from the entry to the block carries: a block on it named as the site
whose last write of the variable is the site, and after it no block writing the variable. -/
def ReachingAlongPaths (g : Cfg) : Prop :=
  ∀ (config : EngineConfig) (n : Nat), g.Reaches .forward (g.startOf .forward) n →
    ∃ v, ((reachingProblem g).solve g config).input[n]?.join = some v ∧
      ∀ d : DefSite, d ∈ v ↔ ∃ ns₁ m ns₂,
        g.Path .forward (g.startOf .forward) (ns₁ ++ m :: ns₂) n ∧ g.LastWriteSite m d ∧
          ∀ k ∈ ns₂, ¬g.Writes k d.var

/-- For every configuration and every block from which the last block is reached along successor
edges, the engine's output table holds the variables read on some such path before being
written: a block on it reads the variable before writing it, and no block between the two
writes it. Backwards the path runs along predecessor edges from the last block, so the blocks
between are the ones after the reading block. -/
def LiveAlongPaths (g : Cfg) : Prop :=
  ∀ (config : EngineConfig) (n : Nat), g.Reaches .backward (g.startOf .backward) n →
    ∃ v, ((liveProblem g).solve g config).output[n]?.join = some v ∧
      ∀ x, x ∈ v ↔ ∃ ns₁ m ns₂,
        g.Path .backward (g.startOf .backward) (ns₁ ++ m :: ns₂) n ∧ g.ReadsFirst m x ∧
          ∀ k ∈ ns₂, ¬g.Writes k x

variable {g : Cfg}

theorem reachingAlongPaths (hg : g.WellFormed) : g.ReachingAlongPaths := by
  intro config n reach
  obtain ⟨v, table, paths⟩ := (reachingGenKill g).unionOverPaths rfl rfl hg
    (reachingGenKill_gen_subset g) (Nat.le_succ_of_le g.length_sites_le) config n reach
  refine ⟨v, table, fun d => ?_⟩
  rw [paths d]
  constructor
  · rintro ⟨ns, path, carried⟩
    obtain ⟨ns₁, m, ns₂, rfl, generated, kept⟩ :=
      ((reachingGenKill g).mem_along_of_union rfl).mp carried
    -- the site was generated last by the last block on the path that writes its variable
    rcases exists_last_split (fun k => g.Writes k d.var) ns₂ with
      none | ⟨l₁, k, l₂, rfl, writes, after⟩
    · exact ⟨ns₁, m, ns₂, path, mem_reachingGen.mp generated, none⟩
    · have site := reachingGenKill_gen_subset g m generated
      have regenerated := mem_reachingGen_of_writes site writes (kept k (by simp))
      rw [show ns₁ ++ m :: (l₁ ++ k :: l₂) = (ns₁ ++ m :: l₁) ++ k :: l₂ by simp] at path
      exact ⟨ns₁ ++ m :: l₁, k, l₂, path, mem_reachingGen.mp regenerated, after⟩
  · rintro ⟨ns₁, m, ns₂, path, site, clear⟩
    refine ⟨_, path, ((reachingGenKill g).mem_along_of_union rfl).mpr
      ⟨ns₁, m, ns₂, rfl, mem_reachingGen.mpr site, fun k hk killed => ?_⟩⟩
    exact clear k hk (writes_of_mem_reachingKill killed)

theorem liveAlongPaths (hg : g.WellFormed) : g.LiveAlongPaths := by
  intro config n reach
  obtain ⟨v, table, paths⟩ := (liveGenKill g).unionOverPaths rfl rfl hg
    (liveGenKill_gen_subset g) (Nat.le_succ_of_le g.length_varNames_le) config n reach
  refine ⟨v, table, fun x => ?_⟩
  rw [paths x]
  constructor
  · rintro ⟨ns, path, carried⟩
    obtain ⟨ns₁, m, ns₂, rfl, generated, kept⟩ :=
      ((liveGenKill g).mem_along_of_union rfl).mp carried
    exact ⟨ns₁, m, ns₂, path, mem_liveGen.mp generated,
      fun k hk writes => kept k hk (mem_liveKill.mpr writes)⟩
  · rintro ⟨ns₁, m, ns₂, path, reads, clear⟩
    exact ⟨_, path, ((liveGenKill g).mem_along_of_union rfl).mpr
      ⟨ns₁, m, ns₂, rfl, mem_liveGen.mpr reads, fun k hk killed => clear k hk (mem_liveKill.mp killed)⟩⟩

end Cfg

end BrilFlow
