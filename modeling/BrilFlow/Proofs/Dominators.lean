import Mathlib.Algebra.Order.BigOperators.Group.Finset
import BrilFlow.Proofs.Dominance
import BrilFlow.Proofs.DepthFirst
import BrilFlow.Shape.Dominator

/-! The dominator sets the iteration computes are the dominators along paths: each round keeps them
supersets of the dominators and only shrinks them, until each set is what its predecessors give. -/
namespace BrilFlow

namespace Cfg

/-- The set `doms` holds for block `k`, `none` when it holds none. -/
def heldAt (doms : Array (Option (List Nat))) (k : Nat) : Option (List Nat) := doms[k]?.getD none

def heldSize (doms : Array (Option (List Nat))) (k : Nat) : Nat := ((heldAt doms k).getD []).length

def meetAll : List (List Nat) → List Nat
  | [] => []
  | d :: ds => ds.foldl Sorted.inter d

/-- The set a round gives block `b` from the sets its predecessors hold: `b` itself and the
blocks all of those sets share. -/
def newDominators (g : Cfg) (doms : Array (Option (List Nat))) (b : Nat) : List Nat :=
  Sorted.insert b (meetAll ((g.predecessors b).filterMap (heldAt doms)))

def updateDominators (g : Cfg) (doms : Array (Option (List Nat))) (b : Nat) :
    Array (Option (List Nat)) :=
  doms.setIfInBounds b (some (g.newDominators doms b))

theorem dominatorRound_eq (g : Cfg) (order : List Nat) (doms : Array (Option (List Nat))) :
    g.dominatorRound order doms = order.foldl g.updateDominators doms := rfl

def keepLarger (sets : Array (Option (List Nat))) (best : Option Nat) (d : Nat) : Option Nat :=
  match best with
  | none => some d
  | some c => if heldSize sets c ≤ heldSize sets d then some d else best

theorem nearestDominator_eq (sets : Array (Option (List Nat))) (candidates : List Nat) :
    nearestDominator sets candidates = candidates.foldl (keepLarger sets) none := rfl

section Held

variable {doms x y : Array (Option (List Nat))} {b k : Nat}

theorem heldAt_setIfInBounds (v : Option (List Nat)) :
    heldAt (doms.setIfInBounds b v) k = if b = k ∧ b < doms.size then v else heldAt doms k := by
  simp only [heldAt, Array.getElem?_setIfInBounds]
  by_cases same : b = k
  · subst same
    by_cases lt : b < doms.size <;> simp [lt]
  · simp [same]

theorem size_foldl_setIfInBounds (L : List Nat) (v : Option (List Nat)) :
    (L.foldl (fun d b => d.setIfInBounds b v) doms).size = doms.size := by
  induction L generalizing doms with
  | nil => rfl
  | cons b L ih => rw [List.foldl_cons, ih, Array.size_setIfInBounds]

theorem heldAt_foldl_setIfInBounds (L : List Nat) (v : Option (List Nat)) :
    heldAt (L.foldl (fun d b => d.setIfInBounds b v) doms) k =
      if k ∈ L ∧ k < doms.size then v else heldAt doms k := by
  induction L generalizing doms with
  | nil => simp
  | cons b L ih =>
    rw [List.foldl_cons, ih, Array.size_setIfInBounds, heldAt_setIfInBounds]
    by_cases same : b = k
    · subst same
      by_cases lt : b < doms.size <;> simp [lt]
    · simp [same, Ne.symm same]

@[simp] theorem heldAt_replicate (n : Nat) : heldAt (Array.replicate n none) k = none := by
  simp only [heldAt, Array.getElem?_replicate]
  split <;> rfl

theorem heldAt_of_size_le (le : doms.size ≤ k) : heldAt doms k = none := by
  simp [heldAt, Array.getElem?_eq_none le]

theorem heldAt_eq_getElem (lt : k < doms.size) : heldAt doms k = doms[k] := by
  simp [heldAt, Array.getElem?_eq_getElem lt]

theorem eq_of_heldAt (size : x.size = y.size) (same : ∀ k, heldAt x k = heldAt y k) : x = y :=
  Array.ext size fun k ltX ltY => by
    rw [← heldAt_eq_getElem ltX, ← heldAt_eq_getElem ltY, same]

theorem heldSize_le_of_subset {D E : List Nat} (canon : Sorted.Canon D) (hD : heldAt x k = some D)
    (hE : heldAt y k = some E) (sub : D ⊆ E) : heldSize x k ≤ heldSize y k := by
  simp only [heldSize, hD, hE, Option.getD_some]
  exact canon.nodup.length_le_of_subset sub

end Held

theorem mem_meetAll {a : Nat} {sets : List (List Nat)} :
    a ∈ meetAll sets ↔ sets ≠ [] ∧ ∀ s ∈ sets, a ∈ s := by
  cases sets with
  | nil => simp [meetAll]
  | cons d ds => simp [meetAll, Sorted.mem_foldl_inter]

theorem canon_meetAll {sets : List (List Nat)} (canon : ∀ s ∈ sets, Sorted.Canon s) :
    Sorted.Canon (meetAll sets) := by
  cases sets with
  | nil => exact Sorted.canon_nil
  | cons d ds => exact Sorted.canon_foldl_inter ds (canon d List.mem_cons_self)

variable {g : Cfg} {doms c x y : Array (Option (List Nat))} {a b k : Nat}

theorem mem_newDominators : a ∈ g.newDominators doms b ↔ a = b ∨
    ((∃ p ∈ g.predecessors b, heldAt doms p ≠ none) ∧
      ∀ p ∈ g.predecessors b, ∀ D, heldAt doms p = some D → a ∈ D) := by
  simp only [newDominators, Sorted.mem_insert, mem_meetAll, ne_eq, List.filterMap_eq_nil_iff,
    List.mem_filterMap, forall_exists_index, and_imp]
  grind

theorem canon_newDominators (canon : ∀ p D, heldAt doms p = some D → Sorted.Canon D) :
    Sorted.Canon (g.newDominators doms b) := by
  refine Sorted.canon_insert b (canon_meetAll fun s hs => ?_)
  obtain ⟨p, -, hp⟩ := List.mem_filterMap.mp hs
  exact canon p s hp

def SetsBelow (x y : Array (Option (List Nat))) : Prop :=
  ∀ k D, heldAt x k = some D → ∃ E, heldAt y k = some E ∧ D ⊆ E

theorem SetsBelow.refl (x : Array (Option (List Nat))) : SetsBelow x x :=
  fun _ D hD => ⟨D, hD, List.Subset.refl D⟩

theorem SetsBelow.trans {z : Array (Option (List Nat))} (xy : SetsBelow x y) (yz : SetsBelow y z) :
    SetsBelow x z := by
  intro k D hD
  obtain ⟨E, hE, DE⟩ := xy k D hD
  obtain ⟨F, hF, EF⟩ := yz k E hE
  exact ⟨F, hF, List.Subset.trans DE EF⟩

theorem newDominators_mono (held : ∀ k, heldAt y k ≠ none → heldAt x k ≠ none)
    (below : SetsBelow x y) : g.newDominators x b ⊆ g.newDominators y b := by
  intro a ha
  rw [mem_newDominators] at ha ⊢
  rcases ha with rfl | ⟨⟨p, hp, present⟩, every⟩
  · exact .inl rfl
  refine .inr ⟨⟨p, hp, ?_⟩, fun q hq E hE => ?_⟩
  · obtain ⟨D, hD⟩ := Option.ne_none_iff_exists'.mp present
    obtain ⟨E, hE, -⟩ := below p D hD
    simp [hE]
  · obtain ⟨D, hD⟩ := Option.ne_none_iff_exists'.mp (held q (by simp [hE]))
    obtain ⟨E', hE', DE⟩ := below q D hD
    rw [hE] at hE'
    exact Option.some.inj hE' ▸ DE (every q hq D hD)

theorem heldAt_updateDominators (lt : b < c.size) (k : Nat) :
    heldAt (g.updateDominators c b) k = if b = k then some (g.newDominators c b) else heldAt c k := by
  simp [updateDominators, heldAt_setIfInBounds, lt]

theorem forall_heldAt_update {P : Nat → List Nat → Prop} (lt : b < c.size)
    (given : P b (g.newDominators c b)) (before : ∀ k D, heldAt c k = some D → P k D) :
    ∀ k D, heldAt (g.updateDominators c b) k = some D → P k D := by
  intro k D hD
  rw [heldAt_updateDominators lt] at hD
  split at hD
  · subst k
    exact Option.some.inj hD ▸ given
  · exact before k D hD

/-- What the sets the iteration holds keep true on a graph: exactly the reachable blocks hold a
set, the entry holds itself alone, every set is canonical, holds reachable blocks only and holds
every dominator of its block, and no block other than the entry holds less than a round gives it. -/
structure DominatorBound (g : Cfg) (doms : Array (Option (List Nat))) : Prop where
  size : doms.size = g.size
  held_iff : ∀ k, heldAt doms k ≠ none ↔ g.Reaches .forward 0 k
  entry : heldAt doms 0 = some [0]
  canon : ∀ k D, heldAt doms k = some D → Sorted.Canon D
  reached : ∀ k D, heldAt doms k = some D → ∀ a ∈ D, g.Reaches .forward 0 a
  dominators : ∀ k D, heldAt doms k = some D → ∀ a, g.Dominates a k → a ∈ D
  postFixed : ∀ k D, k ≠ 0 → heldAt doms k = some D → g.newDominators doms k ⊆ D

namespace DominatorBound

theorem exists_held (bound : g.DominatorBound doms) (reach : g.Reaches .forward 0 k) :
    ∃ D, heldAt doms k = some D :=
  Option.ne_none_iff_exists'.mp ((bound.held_iff k).mpr reach)

theorem reaches_of_mem_newDominators (bound : g.DominatorBound doms)
    (reach : g.Reaches .forward 0 b) (ha : a ∈ g.newDominators doms b) :
    g.Reaches .forward 0 a := by
  rcases mem_newDominators.mp ha with rfl | ⟨⟨p, hp, present⟩, every⟩
  · exact reach
  · obtain ⟨D, hD⟩ := Option.ne_none_iff_exists'.mp present
    exact bound.reached p D hD a (every p hp D hD)

theorem dominators_mem_newDominators (hg : g.WellFormed) (bound : g.DominatorBound doms)
    (ne : b ≠ 0) (dom : g.Dominates a b) : a ∈ g.newDominators doms b := by
  rw [mem_newDominators]
  by_cases same : a = b
  · exact .inl same
  refine .inr ⟨?_, fun p hp D hD => ?_⟩
  · -- the last edge of a path to `b` comes from a reachable predecessor
    obtain ⟨ns, path⟩ := dom.1.exists_path
    cases path with
    | here => exact absurd rfl ne
    | @step ns m _ front edge _ =>
      exact ⟨m, hg.mem_predecessors.mpr edge, (bound.held_iff m).mpr front.reaches⟩
  · have reach := (bound.held_iff p).mp (by simp [hD])
    exact bound.dominators p D hD a (dom.of_predecessor hg same hp reach)

theorem update (hg : g.WellFormed) (bound : g.DominatorBound c) (ne : b ≠ 0)
    (reach : g.Reaches .forward 0 b) :
    g.DominatorBound (g.updateDominators c b) ∧ SetsBelow (g.updateDominators c b) c := by
  have lt : b < c.size := bound.size ▸ reach.lt_size
  obtain ⟨Db, hDb⟩ := bound.exists_held reach
  have below : SetsBelow (g.updateDominators c b) c :=
    forall_heldAt_update lt ⟨Db, hDb, bound.postFixed b Db ne hDb⟩
      fun k D hD => ⟨D, hD, List.Subset.refl D⟩
  have held : ∀ k, heldAt (g.updateDominators c b) k ≠ none ↔ heldAt c k ≠ none := fun k => by
    rw [heldAt_updateDominators lt]
    split
    · subst k
      simp [hDb]
    · rfl
  -- the new sets are smaller, so a round gives each block no more than before
  have shrinks : ∀ k, g.newDominators (g.updateDominators c b) k ⊆ g.newDominators c k :=
    fun _ => newDominators_mono (fun k => (held k).mpr) below
  refine ⟨⟨by simp [updateDominators, bound.size], fun k => (held k).trans (bound.held_iff k),
    by rw [heldAt_updateDominators lt, if_neg ne, bound.entry],
    forall_heldAt_update lt (canon_newDominators bound.canon) bound.canon,
    forall_heldAt_update lt (fun a ha => bound.reaches_of_mem_newDominators reach ha)
      bound.reached,
    forall_heldAt_update lt (fun a dom => bound.dominators_mem_newDominators hg ne dom)
      bound.dominators, fun k D ne' hD => ?_⟩, below⟩
  refine forall_heldAt_update
    (P := fun k D => k ≠ 0 → g.newDominators (g.updateDominators c b) k ⊆ D) lt (fun _ => shrinks b)
    (fun k D hD ne' => List.Subset.trans (shrinks k) (bound.postFixed k D ne' hD)) k D hD ne'

end DominatorBound

/-- A round over blocks reachable from the entry, other than the entry, keeps the bound, shrinks
the sets, and leaves each of those blocks inside what the round's start gives it. -/
theorem DominatorBound.round (hg : g.WellFormed) (L : List Nat)
    (inRest : ∀ b ∈ L, b ≠ 0 ∧ g.Reaches .forward 0 b) (bound : g.DominatorBound c) :
    g.DominatorBound (L.foldl g.updateDominators c) ∧ SetsBelow (L.foldl g.updateDominators c) c ∧
      ∀ b ∈ L, ∀ D, heldAt (L.foldl g.updateDominators c) b = some D →
        D ⊆ g.newDominators c b := by
  induction L generalizing c with
  | nil => exact ⟨bound, SetsBelow.refl c, by simp⟩
  | cons b L ih =>
    obtain ⟨ne, reach⟩ := inRest b List.mem_cons_self
    obtain ⟨bound₁, below₁⟩ := bound.update hg ne reach
    obtain ⟨boundR, belowR, within⟩ := ih (fun b hb => inRest b (List.mem_cons_of_mem _ hb)) bound₁
    refine ⟨boundR, belowR.trans below₁, fun b' hb' D hD => ?_⟩
    rcases List.mem_cons.mp hb' with rfl | later
    · obtain ⟨E, hE, DE⟩ := belowR b' D hD
      rw [heldAt_updateDominators (bound.size ▸ reach.lt_size), if_pos rfl] at hE
      exact Option.some.inj hE ▸ DE
    · have held : ∀ k, heldAt c k ≠ none → heldAt (g.updateDominators c b) k ≠ none := fun k h =>
        (bound₁.held_iff k).mpr ((bound.held_iff k).mp h)
      exact List.Subset.trans (within b' later D hD) (newDominators_mono held below₁)

/-- The sum of the sizes of the sets held, the measure the rounds decrease. -/
def heldTotal (g : Cfg) (doms : Array (Option (List Nat))) : Nat :=
  ∑ k ∈ Finset.range g.size, heldSize doms k

theorem heldTotal_le (bound : g.DominatorBound doms) : g.heldTotal doms ≤ g.size * g.size := by
  have each : ∀ k ∈ Finset.range g.size, heldSize doms k ≤ g.size := by
    intro k _
    rcases hk : heldAt doms k with _ | D
    · simp [heldSize, hk]
    · -- a canonical set of reachable blocks has no more members than there are blocks
      have inside : D ⊆ List.range g.size := fun a ha =>
        List.mem_range.mpr (bound.reached k D hk a ha).lt_size
      simpa [heldSize, hk] using (bound.canon k D hk).nodup.length_le_of_subset inside
  have total := Finset.sum_le_card_nsmul _ _ _ each
  simpa [heldTotal] using total

theorem heldTotal_lt (boundX : g.DominatorBound x) (boundY : g.DominatorBound y)
    (below : SetsBelow x y) (ne : x ≠ y) : g.heldTotal x < g.heldTotal y := by
  have differ : ∃ k, heldAt x k ≠ heldAt y k := by
    by_contra same
    push Not at same
    exact ne (eq_of_heldAt (boundX.size.trans boundY.size.symm) same)
  obtain ⟨k, differ⟩ := differ
  have held : ∀ k, heldAt x k ≠ none ↔ heldAt y k ≠ none := fun k =>
    (boundX.held_iff k).trans (boundY.held_iff k).symm
  -- at the block where they differ both hold a set, the one of `x` strictly inside
  obtain ⟨D, hD⟩ : ∃ D, heldAt x k = some D := by
    by_contra absent
    have hx : heldAt x k = none := by simpa [Option.eq_none_iff_forall_ne_some] using absent
    have hy : heldAt y k = none := by simpa [hx] using (held k).not
    exact differ (hx.trans hy.symm)
  obtain ⟨E, hE, DE⟩ := below k D hD
  have lt : k < g.size := boundX.size ▸ (Nat.lt_of_not_le fun le => by
    simp [heldAt_of_size_le le] at hD)
  apply Finset.sum_lt_sum
  · intro j _
    rcases hj : heldAt x j with _ | D'
    · simp [heldSize, hj]
    · obtain ⟨E', hE', DE'⟩ := below j D' hj
      exact heldSize_le_of_subset (boundX.canon j D' hj) hj hE' DE'
  · refine ⟨k, Finset.mem_range.mpr lt, ?_⟩
    simp only [heldSize, hD, hE, Option.getD_some]
    exact Sorted.length_lt_of_subset (boundX.canon k D hD) (boundY.canon k E hE) DE
      (fun same => differ (by rw [hD, hE, same]))

/-- Sets that a round over the blocks reachable from the entry, other than the entry, no longer
changes: each of those blocks holds what its predecessors' sets give it. -/
structure DominatorFixed (g : Cfg) (doms : Array (Option (List Nat))) : Prop where
  bound : g.DominatorBound doms
  fixed : ∀ b D, b ≠ 0 → heldAt doms b = some D → D ⊆ g.newDominators doms b

/-- With enough fuel, repeating rounds from a bound reaches sets a round no longer changes. -/
theorem settleDominators_fixed (hg : g.WellFormed) (rest : List Nat)
    (inRest : ∀ b ∈ rest, b ≠ 0 ∧ g.Reaches .forward 0 b)
    (allRest : ∀ b, b ≠ 0 → g.Reaches .forward 0 b → b ∈ rest) :
    ∀ fuel c, g.DominatorBound c → g.heldTotal c < fuel →
      g.DominatorFixed (g.settleDominators rest fuel c) := by
  intro fuel
  induction fuel with
  | zero => intro c _ lt; omega
  | succ fuel ih =>
    intro c bound lt
    obtain ⟨boundN, belowN, within⟩ := bound.round hg rest inRest
    rw [← dominatorRound_eq] at boundN belowN within
    rw [settleDominators]
    by_cases same : g.dominatorRound rest c = c
    · -- the round changed nothing: every block outside the entry holds what a round gives
      rw [if_pos (beq_iff_eq.mpr same)]
      refine ⟨bound, fun b D ne hD => ?_⟩
      by_cases reach : g.Reaches .forward 0 b
      · exact within b (allRest b ne reach) D (by rw [same]; exact hD)
      · exact absurd ((bound.held_iff b).mp (by simp [hD])) reach
    · rw [if_neg (by simpa using same)]
      exact ih _ boundN (Nat.lt_of_lt_of_le (heldTotal_lt boundN bound belowN same)
        (Nat.le_of_lt_succ lt))

theorem DominatorFixed.subset_path (fixed : g.DominatorFixed doms) (hg : g.WellFormed)
    {ns : List Nat} (path : g.Path .forward 0 ns b) :
    ∀ D, heldAt doms b = some D → D ⊆ ns ++ [b] := by
  induction path with
  | here _ =>
    intro D hD
    rw [fixed.bound.entry] at hD
    simp [← Option.some.inj hD]
  | @step ns m n front edge _ ih =>
    intro D hD a ha
    by_cases entry : n = 0
    · subst entry
      rw [fixed.bound.entry] at hD
      simp [← Option.some.inj hD] at ha
      simp [ha]
    rcases mem_newDominators.mp (fixed.fixed n D entry hD ha) with rfl | ⟨-, every⟩
    · simp
    · -- the block before the last holds a set lying on the path before it
      obtain ⟨E, hE⟩ := fixed.bound.exists_held front.reaches
      have onPath := ih E hE (every m (hg.mem_predecessors.mpr edge) E hE)
      exact List.mem_append_left _ onPath

/-- The sets a round no longer changes are the dominators. -/
theorem DominatorFixed.mem_iff (fixed : g.DominatorFixed doms) (hg : g.WellFormed) {D : List Nat}
    (hD : heldAt doms b = some D) : a ∈ D ↔ g.Dominates a b := by
  have reach := (fixed.bound.held_iff b).mp (by simp [hD])
  exact ⟨fun ha => ⟨reach, fun ns path => fixed.subset_path hg path D hD ha⟩,
    fixed.bound.dominators b D hD a⟩

def dominatorStart (g : Cfg) (rest : List Nat) : Array (Option (List Nat)) :=
  (rest.foldl (fun d b => d.setIfInBounds b (some (Sorted.ofList (0 :: rest))))
    (Array.replicate g.size none)).setIfInBounds 0 (some [0])

section Start

variable {rest : List Nat}

theorem mem_ofList_reversePostorder (hg : g.WellFormed) (order : g.reversePostorder = 0 :: rest) :
    a ∈ Sorted.ofList (0 :: rest) ↔ g.Reaches .forward 0 a := by
  rw [Sorted.mem_ofList, ← order, mem_reversePostorder hg]

theorem heldAt_dominatorStart (hg : g.WellFormed) (nonempty : 0 < g.size)
    (order : g.reversePostorder = 0 :: rest) (k : Nat) :
    heldAt (g.dominatorStart rest) k = if k = 0 then some [0]
      else if g.Reaches .forward 0 k then some (Sorted.ofList (0 :: rest)) else none := by
  rw [dominatorStart, heldAt_setIfInBounds, size_foldl_setIfInBounds, heldAt_foldl_setIfInBounds,
    Array.size_replicate, heldAt_replicate]
  by_cases zero : k = 0
  · simp [zero, nonempty]
  · -- the other blocks of reverse postorder are the reachable ones
    have inRest : k ∈ rest ↔ g.Reaches .forward 0 k := by
      rw [← mem_reversePostorder hg, order, List.mem_cons, or_iff_right zero]
    by_cases reach : g.Reaches .forward 0 k
    · simp [zero, Ne.symm zero, reach, inRest.mpr reach, reach.lt_size]
    · simp [zero, Ne.symm zero, reach, inRest]

theorem dominatorBound_start (hg : g.WellFormed) (nonempty : 0 < g.size)
    (order : g.reversePostorder = 0 :: rest) : g.DominatorBound (g.dominatorStart rest) := by
  have held := heldAt_dominatorStart hg nonempty order
  have reached : ∀ k D, heldAt (g.dominatorStart rest) k = some D →
      ∀ a ∈ D, g.Reaches .forward 0 a := by
    intro k D hD a ha
    rw [held] at hD
    split_ifs at hD
    · simp only [← Option.some.inj hD, List.mem_singleton] at ha
      rw [ha]
      exact .start nonempty
    · exact (mem_ofList_reversePostorder hg order).mp (Option.some.inj hD ▸ ha)
  refine ⟨by simp [dominatorStart, size_foldl_setIfInBounds], fun k => ?_, by simp [held],
    fun k D hD => ?_, reached, fun k D hD a dom => ?_, fun k D ne hD a ha => ?_⟩
  · rw [held]
    by_cases zero : k = 0
    · simp [zero, Reaches.start nonempty]
    · by_cases reach : g.Reaches .forward 0 k <;> simp [zero, reach]
  · rw [held] at hD
    split_ifs at hD
    · simp [← Option.some.inj hD, Sorted.Canon]
    · exact Option.some.inj hD ▸ Sorted.canon_ofList _
  · rw [held] at hD
    split_ifs at hD with zero
    · subst zero
      simp [← Option.some.inj hD, (dominates_entry_iff.mp dom).1]
    · exact Option.some.inj hD ▸ (mem_ofList_reversePostorder hg order).mpr dom.reaches_left
  · -- a round gives a block itself and members of its predecessors' sets, all reachable
    rw [held, if_neg ne] at hD
    split_ifs at hD with reach
    rw [← Option.some.inj hD, mem_ofList_reversePostorder hg order]
    rcases mem_newDominators.mp ha with rfl | ⟨⟨p, hp, present⟩, every⟩
    · exact reach
    · obtain ⟨E, hE⟩ := Option.ne_none_iff_exists'.mp present
      exact reached p E hE a (every p hp E hE)

end Start

theorem dominatorSets_of_size_eq_zero (hg : g.WellFormed) (empty : g.size = 0) :
    g.dominatorSets = Array.replicate g.size none := by
  have none : g.reversePostorder = [] := List.eq_nil_iff_forall_not_mem.mpr fun k hk => by
    have := ((mem_reversePostorder hg).mp hk).lt_size
    omega
  simp only [dominatorSets, none]

theorem dominatorFixed_dominatorSets (hg : g.WellFormed) (nonempty : 0 < g.size) :
    g.DominatorFixed g.dominatorSets := by
  obtain ⟨rest, order⟩ : ∃ rest, g.reversePostorder = 0 :: rest := by
    have head := reversePostorder_head hg nonempty
    cases h : g.reversePostorder with
    | nil => simp [h] at head
    | cons e rest =>
      rw [h, List.head?_cons, Option.some.injEq] at head
      exact ⟨rest, by rw [head]⟩
  have nodup := nodup_reversePostorder hg
  rw [order] at nodup
  have inRest : ∀ b ∈ rest, b ≠ 0 ∧ g.Reaches .forward 0 b := fun b hb =>
    ⟨fun zero => (List.nodup_cons.mp nodup).1 (zero ▸ hb),
      (mem_reversePostorder hg).mp (order ▸ List.mem_cons_of_mem 0 hb)⟩
  have allRest : ∀ b, b ≠ 0 → g.Reaches .forward 0 b → b ∈ rest := fun b ne reach => by
    rw [← mem_reversePostorder hg, order, List.mem_cons] at reach
    exact reach.resolve_left ne
  have bound := dominatorBound_start hg nonempty order
  simp only [dominatorSets, order]
  exact settleDominators_fixed hg rest inRest allRest _ _ bound
    (Nat.lt_succ_of_le (heldTotal_le bound))

/-- A block's computed set is `none` exactly when the entry does not reach it, and otherwise is
canonical and holds exactly its dominators. -/
theorem dominatorsOf?_spec (hg : g.WellFormed) (b : Nat) :
    (g.dominatorsOf? b = none ↔ ¬g.Reaches .forward 0 b) ∧
      ∀ D, g.dominatorsOf? b = some D → Sorted.Canon D ∧ ∀ a, a ∈ D ↔ g.Dominates a b := by
  by_cases nonempty : 0 < g.size
  · have fixed := dominatorFixed_dominatorSets hg nonempty
    refine ⟨by rw [← fixed.bound.held_iff b, not_not]; rfl, fun D hD => ?_⟩
    exact ⟨fixed.bound.canon b D hD, fun a => fixed.mem_iff hg hD⟩
  · have empty : g.size = 0 := by omega
    have none : g.dominatorsOf? b = none := by
      change heldAt g.dominatorSets b = none
      rw [dominatorSets_of_size_eq_zero hg empty, heldAt_replicate]
    refine ⟨iff_of_true none fun reach => ?_, by simp [none]⟩
    have := reach.lt_size
    omega

theorem exists_dominatorsOf? (hg : g.WellFormed) (reach : g.Reaches .forward 0 b) :
    ∃ D, g.dominatorsOf? b = some D ∧ Sorted.Canon D ∧ ∀ a, a ∈ D ↔ g.Dominates a b := by
  obtain ⟨known, spec⟩ := dominatorsOf?_spec hg b
  obtain ⟨D, hD⟩ := Option.ne_none_iff_exists'.mp (mt known.mp (not_not.mpr reach))
  exact ⟨D, hD, spec D hD⟩

/-- `dominates` answers dominance along paths from the entry. -/
theorem dominates_iff (hg : g.WellFormed) : g.dominates a b = true ↔ g.Dominates a b := by
  unfold dominates
  split
  · rename_i D hD
    rw [List.contains_iff_mem]
    exact ((dominatorsOf?_spec hg b).2 D hD).2 a
  · rename_i hD
    simp only [Bool.false_eq_true, false_iff]
    exact fun dom => (dominatorsOf?_spec hg b).1.mp hD dom.1

theorem heldSize_lt (hg : g.WellFormed) {i : Nat} (dom : g.Dominates i a) (ne : i ≠ a) :
    heldSize g.dominatorSets i < heldSize g.dominatorSets a := by
  obtain ⟨I, hI, canonI, memI⟩ := exists_dominatorsOf? hg dom.reaches_left
  obtain ⟨A, hA, canonA, memA⟩ := exists_dominatorsOf? hg dom.1
  have sub : I ⊆ A := fun x hx => (memA x).mpr (((memI x).mp hx).trans dom)
  -- `a` is in its own set and not in the set of `i`, which it would dominate
  have missing : a ∉ I := fun ha => ne (dom.antisymm ((memI a).mp ha))
  have self : a ∈ A := (memA a).mpr (dominates_self dom.1)
  simp only [heldSize, show heldAt g.dominatorSets i = some I from hI,
    show heldAt g.dominatorSets a = some A from hA, Option.getD_some]
  exact Sorted.length_lt_of_subset canonI canonA sub fun same => missing (same ▸ self)

theorem keepLarger_spec (sets : Array (Option (List Nat))) (best : Option Nat) (d : Nat) :
    ∃ c, keepLarger sets best d = some c ∧ (c = d ∨ best = some c) ∧
      heldSize sets d ≤ heldSize sets c ∧ ∀ b₀, best = some b₀ → heldSize sets b₀ ≤ heldSize sets c := by
  cases best with
  | none => exact ⟨d, rfl, .inl rfl, le_refl _, by simp⟩
  | some c₀ =>
    by_cases larger : heldSize sets c₀ ≤ heldSize sets d
    · exact ⟨d, by simp [keepLarger, larger], .inl rfl, le_refl _, by simpa using larger⟩
    · exact ⟨c₀, by simp [keepLarger, larger], .inr rfl, by omega, by simp⟩

/-- The fold of `nearestDominator` ends at a candidate, or at where it started, whose set is at
least as large as the set of every candidate. -/
theorem foldl_keepLarger (sets : Array (Option (List Nat))) (cands : List Nat) (best : Option Nat)
    (start : best ≠ none ∨ cands ≠ []) :
    ∃ c, cands.foldl (keepLarger sets) best = some c ∧ (c ∈ cands ∨ best = some c) ∧
      (∀ d ∈ cands, heldSize sets d ≤ heldSize sets c) ∧
      ∀ b₀, best = some b₀ → heldSize sets b₀ ≤ heldSize sets c := by
  induction cands generalizing best with
  | nil =>
    obtain ⟨c, rfl⟩ := Option.ne_none_iff_exists'.mp (start.resolve_right (by simp))
    exact ⟨c, rfl, .inr rfl, by simp, by simp⟩
  | cons d ds ih =>
    obtain ⟨c', step, kept, dLe, bestLe⟩ := keepLarger_spec sets best d
    obtain ⟨c, fold, mem, every, c'Le⟩ := ih (some c') (.inl (by simp))
    have c'c := c'Le c' rfl
    refine ⟨c, by rw [List.foldl_cons, step]; exact fold, ?_, ?_,
      fun b₀ h => (bestLe b₀ h).trans c'c⟩
    · rcases mem with mem | same
      · exact .inl (List.mem_cons_of_mem d mem)
      · rcases kept with rfl | kept
        · exact .inl (by simp [Option.some.inj same])
        · exact .inr (kept.trans same)
    · intro d' hd'
      rcases List.mem_cons.mp hd' with rfl | later
      · exact dLe.trans c'c
      · exact every d' later

theorem find?_filterMap_keyed {β : Type} (F : Nat → Option (Nat × β))
    (keyed : ∀ k r, F k = some r → r.1 = k) (b : Nat) (l : List Nat) :
    (l.filterMap F).find? (·.1 == b) = if b ∈ l then F b else none := by
  induction l with
  | nil => simp
  | cons k l ih =>
    rcases hk : F k with _ | r
    · rw [List.filterMap_cons_none hk, ih]
      by_cases same : k = b
      · subst same
        simp [hk]
      · simp [Ne.symm same]
    · rw [List.filterMap_cons_some hk]
      have key := keyed k r hk
      by_cases same : k = b
      · subst same
        rw [List.find?_cons_of_pos (by simp [key])]
        simp [hk]
      · rw [List.find?_cons_of_neg (by simp [key, same]), ih]
        simp [Ne.symm same]

theorem immediateDominator?_eq (g : Cfg) (b : Nat) :
    g.immediateDominator? b = if b < g.size then (g.dominatorsOf? b).bind fun D =>
      if g.reversePostorder.head? == some b then none
      else nearestDominator g.dominatorSets (D.filter (· ≠ b)) else none := by
  simp only [immediateDominator?, dominatorTable]
  rw [find?_filterMap_keyed _ (fun k r h => by
    obtain ⟨D, -, rfl⟩ := Option.map_eq_some_iff.mp h
    rfl)]
  simp only [List.mem_range]
  split
  · show ((g.dominatorsOf? b).map _).bind _ = _
    cases g.dominatorsOf? b <;> rfl
  · rfl

theorem immediateDominator?_entry (hg : g.WellFormed) : g.immediateDominator? 0 = none := by
  rw [immediateDominator?_eq]
  split
  · rename_i nonempty
    rw [reversePostorder_head hg nonempty]
    cases g.dominatorsOf? 0 <;> rfl
  · rfl

theorem immediateDominator?_of_not_reaches (hg : g.WellFormed) (unreached : ¬g.Reaches .forward 0 b) :
    g.immediateDominator? b = none := by
  rw [immediateDominator?_eq, (dominatorsOf?_spec hg b).1.mpr unreached]
  split <;> rfl

/-- Taken in any order, with any repeats, the strict dominators of a block the entry reaches,
other than the entry, give its immediate dominator as the nearest. -/
theorem nearestDominator_spec (hg : g.WellFormed) (reach : g.Reaches .forward 0 b) (ne : b ≠ 0)
    {cands : List Nat} (strict : ∀ a, a ∈ cands ↔ g.Dominates a b ∧ a ≠ b) :
    ∃ i, nearestDominator g.dominatorSets cands = some i ∧ g.ImmediatelyDominates i b := by
  have entryIn : 0 ∈ cands := (strict 0).mpr ⟨entry_dominates reach, Ne.symm ne⟩
  obtain ⟨i, fold, mem, largest, -⟩ :=
    foldl_keepLarger g.dominatorSets cands none (.inr (List.ne_nil_of_mem entryIn))
  obtain ⟨idom, ine⟩ := (strict i).mp (mem.resolve_right (by simp))
  refine ⟨i, by rw [nearestDominator_eq]; exact fold, idom, ine, fun a dom ane => ?_⟩
  -- strict dominators are ordered; the one with the largest set is below all others
  rcases dom.total idom with below | above
  · exact below
  · by_cases same : i = a
    · exact same ▸ dominates_self idom.reaches_left
    · exact absurd (largest a ((strict a).mpr ⟨dom, ane⟩)) (not_le.mpr (heldSize_lt hg above same))

/-- A block the entry reaches, other than the entry, has an immediate dominator, and
`immediateDominator?` returns it. -/
theorem immediateDominator?_spec (hg : g.WellFormed) (reach : g.Reaches .forward 0 b)
    (ne : b ≠ 0) : ∃ i, g.immediateDominator? b = some i ∧ g.ImmediatelyDominates i b := by
  obtain ⟨D, hD, -, memD⟩ := exists_dominatorsOf? hg reach
  -- the candidates are the strict dominators
  have strict : ∀ a, a ∈ D.filter (· ≠ b) ↔ g.Dominates a b ∧ a ≠ b := fun a => by simp [memD]
  obtain ⟨i, nearest, idom⟩ := nearestDominator_spec hg reach ne strict
  refine ⟨i, ?_, idom⟩
  rw [immediateDominator?_eq, if_pos reach.lt_size, hD, Option.bind_some,
    reversePostorder_head hg reach.start_lt, if_neg (by simpa using Ne.symm ne), nearest]

/-- The dominator tree of a graph is exact: `dominates` answers dominance along paths from the
entry, each block the entry reaches other than the entry has exactly one immediate dominator,
which `immediateDominator?` returns, and the entry and the blocks the entry does not reach have
none. -/
structure DominatorTreeExact (g : Cfg) : Prop where
  dominates_iff : ∀ a b, g.dominates a b = true ↔ g.Dominates a b
  immediate : ∀ b, g.Reaches .forward 0 b → b ≠ 0 →
    ∃ i, g.immediateDominator? b = some i ∧ ∀ j, g.ImmediatelyDominates j b ↔ j = i
  entry : g.immediateDominator? 0 = none
  unreached : ∀ b, ¬g.Reaches .forward 0 b → g.immediateDominator? b = none

end Cfg

theorem dominatorTree_exact (blocks : List NamedBlock) (g : Cfg) (h : Cfg.ofBlocks blocks = .ok g) :
    g.DominatorTreeExact := by
  have hg := Cfg.ofBlocks_wellFormed h
  refine ⟨fun a b => Cfg.dominates_iff hg, fun b reach ne => ?_, Cfg.immediateDominator?_entry hg,
    fun b unreached => Cfg.immediateDominator?_of_not_reaches hg unreached⟩
  obtain ⟨i, eq, idom⟩ := Cfg.immediateDominator?_spec hg reach ne
  exact ⟨i, eq, fun j => ⟨fun jdom => jdom.unique idom, fun same => same ▸ idom⟩⟩

/-- The graph of a block that loops on itself before falling through to a returning block. -/
theorem dominatorTree_exact_loop :
    Cfg.ofBlocks loopGraph.blocks.toList = .ok loopGraph ∧ loopGraph.DominatorTreeExact :=
  have built : Cfg.ofBlocks loopGraph.blocks.toList = .ok loopGraph := by decide +kernel
  ⟨built, dominatorTree_exact _ _ built⟩

end BrilFlow
