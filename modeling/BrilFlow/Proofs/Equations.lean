import BrilFlow.Proofs.Graph
import BrilFlow.Analysis.Problem

/-! The dataflow equations over the reachable blocks of a graph, and the monotone frameworks of
bounded height under which the engine solves them. -/
namespace BrilFlow

variable {α : Type}

namespace Problem

def incoming (g : Cfg) (p : Problem α) (start : Nat) (out : Nat → α) (n : Nat) : List α :=
  ((g.flowIn n p.direction).filter fun q => g.Reaches p.direction start q).map out

/-- What block `n` receives when every reachable block `q` sends `out q`. -/
def receives (g : Cfg) (p : Problem α) (start : Nat) (out : Nat → α) (n : Nat) : α :=
  if n = start ∧ p.incoming g start out n = [] then p.init else p.merge (p.incoming g start out n)

/-- Values received (`IN`) and sent (`OUT`) by the blocks, in flow terms, that satisfy the
dataflow equations on every block reachable from `start`. -/
structure Solves (g : Cfg) (p : Problem α) (start : Nat) (IN OUT : Nat → α) : Prop where
  input : ∀ n, g.Reaches p.direction start n → IN n = p.receives g start OUT n
  output : ∀ n, g.Reaches p.direction start n → OUT n = p.transfer n (IN n)

theorem receives_congr {g : Cfg} {p : Problem α} {start n : Nat} {out out' : Nat → α}
    (same : ∀ q ∈ g.flowIn n p.direction, g.Reaches p.direction start q → out q = out' q) :
    p.receives g start out n = p.receives g start out' n := by
  have : p.incoming g start out n = p.incoming g start out' n := by
    apply List.map_congr_left
    intro q hq
    obtain ⟨mem, reach⟩ := List.mem_filter.mp hq
    exact same q mem (of_decide_eq_true reach)
  simp only [receives, this]

/-- An order on a problem's values in which the engine's iteration is monotone and of bounded
height. Canonical values are the ones merging and transfers produce; `bounded` values are those
built from the function's own items, whose `rank` stays within `height`. -/
structure Framework (p : Problem α) where
  le : α → α → Prop
  canon : α → Prop
  le_refl : ∀ x, le x x
  le_trans : ∀ {x y z}, le x y → le y z → le x z
  le_antisymm : ∀ {x y}, canon x → canon y → le x y → le y x → x = y
  canon_init : canon p.init
  canon_merge : ∀ xs, canon (p.merge xs)
  canon_transfer : ∀ n {x}, canon x → canon (p.transfer n x)
  init_le : ∀ {x}, canon x → le p.init x
  merge_mono : ∀ {xs ys}, List.Forall₂ le xs ys → (∀ x ∈ xs, canon x) → (∀ y ∈ ys, canon y) →
    le (p.merge xs) (p.merge ys)
  transfer_mono : ∀ n {x y}, canon x → canon y → le x y → le (p.transfer n x) (p.transfer n y)
  bounded : α → Prop
  bounded_init : bounded p.init
  bounded_merge : ∀ {xs}, (∀ x ∈ xs, bounded x) → bounded (p.merge xs)
  bounded_transfer : ∀ n {x}, bounded x → bounded (p.transfer n x)
  rank : α → Nat
  height : Nat
  rank_le : ∀ {x}, canon x → bounded x → rank x ≤ height
  rank_lt : ∀ {x y}, canon x → canon y → bounded x → bounded y → le x y → x ≠ y → rank x < rank y
  height_le : height ≤ p.height

namespace Framework

variable {g : Cfg} {p : Problem α} (fw : p.Framework) {start : Nat}

theorem canon_receives (out : Nat → α) (n : Nat) : fw.canon (p.receives g start out n) := by
  unfold receives
  split
  · exact fw.canon_init
  · exact fw.canon_merge _

theorem bounded_receives {out : Nat → α}
    (bounded : ∀ q, g.Reaches p.direction start q → fw.bounded (out q)) (n : Nat) :
    fw.bounded (p.receives g start out n) := by
  unfold receives
  split
  · exact fw.bounded_init
  · apply fw.bounded_merge
    intro x hx
    obtain ⟨q, hq, rfl⟩ := List.mem_map.mp hx
    exact bounded q (of_decide_eq_true (List.mem_filter.mp hq).2)

theorem receives_mono {out out' : Nat → α}
    (canon : ∀ q, g.Reaches p.direction start q → fw.canon (out q))
    (canon' : ∀ q, g.Reaches p.direction start q → fw.canon (out' q))
    (le : ∀ q, g.Reaches p.direction start q → fw.le (out q) (out' q)) (n : Nat) :
    fw.le (p.receives g start out n) (p.receives g start out' n) := by
  have reached : ∀ q ∈ (g.flowIn n p.direction).filter (fun q => g.Reaches p.direction start q),
      g.Reaches p.direction start q := fun q hq => of_decide_eq_true (List.mem_filter.mp hq).2
  have empty : p.incoming g start out n = [] ↔ p.incoming g start out' n = [] := by
    simp [incoming]
  unfold receives
  by_cases start : n = start ∧ p.incoming g start out n = []
  · rw [if_pos start, if_pos ⟨start.1, empty.mp start.2⟩]
    exact fw.le_refl _
  · rw [if_neg start, if_neg fun h => start ⟨h.1, empty.mpr h.2⟩]
    apply fw.merge_mono
    · exact List.forall₂_map_left_iff.mpr <| List.forall₂_map_right_iff.mpr <|
        List.forall₂_same.mpr fun q hq => le q (reached q hq)
    · simp only [incoming, List.mem_map]
      rintro x ⟨q, hq, rfl⟩; exact canon q (reached q hq)
    · simp only [incoming, List.mem_map]
      rintro x ⟨q, hq, rfl⟩; exact canon' q (reached q hq)

theorem canon_step (out : Nat → α) (n : Nat) :
    fw.canon (p.transfer n (p.receives g start out n)) :=
  fw.canon_transfer n (fw.canon_receives out n)

theorem step_mono {out out' : Nat → α}
    (canon : ∀ q, g.Reaches p.direction start q → fw.canon (out q))
    (canon' : ∀ q, g.Reaches p.direction start q → fw.canon (out' q))
    (le : ∀ q, g.Reaches p.direction start q → fw.le (out q) (out' q)) (n : Nat) :
    fw.le (p.transfer n (p.receives g start out n)) (p.transfer n (p.receives g start out' n)) :=
  fw.transfer_mono n (fw.canon_receives out n) (fw.canon_receives out' n)
    (fw.receives_mono canon canon' le n)

theorem canon_of_solves {IN OUT : Nat → α} (sol : p.Solves g start IN OUT) {n : Nat}
    (reach : g.Reaches p.direction start n) : fw.canon (IN n) ∧ fw.canon (OUT n) := by
  rw [sol.output n reach, sol.input n reach]
  exact ⟨fw.canon_receives OUT n, fw.canon_step OUT n⟩

/-- Canonical values from which every reachable block sends at least its transfer of what it
receives: a solution, or anything above one. -/
def Closed (g : Cfg) (start : Nat) (OUT : Nat → α) : Prop :=
  ∀ n, g.Reaches p.direction start n →
    fw.canon (OUT n) ∧ fw.le (p.transfer n (p.receives g start OUT n)) (OUT n)

theorem closed_of_solves {IN OUT : Nat → α} (sol : p.Solves g start IN OUT) :
    fw.Closed g start OUT := by
  intro n reach
  refine ⟨(fw.canon_of_solves sol reach).2, ?_⟩
  rw [sol.output n reach, sol.input n reach]
  exact fw.le_refl _

end Framework

end Problem

end BrilFlow
