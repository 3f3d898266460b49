import BrilFlow.Proofs.SortedSet
import BrilFlow.Proofs.Equations

/-! Problems over finite sets whose transfer keeps what a block receives less the items it kills
and adds the items it generates. Merged by union from the empty set, they form a framework
ordered by inclusion whose height is the size of any universe holding every generated item;
merged by intersection from such a universe, one ordered by reverse inclusion. -/
namespace BrilFlow

variable {β : Type} [Ord β]

/-- A problem over sets of `β` whose transfer at block `n` removes `kill n` and adds `gen n`. -/
structure GenKill (p : Problem (List β)) where
  gen : Nat → List β
  kill : Nat → List β
  mem_transfer : ∀ n x a, a ∈ p.transfer n x ↔ a ∈ gen n ∨ (a ∈ x ∧ a ∉ kill n)
  canon_transfer : ∀ n {x}, Sorted.Canon x → Sorted.Canon (p.transfer n x)

namespace GenKill

variable {p : Problem (List β)}

theorem transfer_subset (gk : GenKill p) {x y : List β} (sub : x ⊆ y) (n : Nat) :
    p.transfer n x ⊆ p.transfer n y := by
  intro a ha
  rw [gk.mem_transfer] at ha ⊢
  rcases ha with gen | ⟨mem, alive⟩
  · exact .inl gen
  · exact .inr ⟨sub mem, alive⟩

theorem transfer_within (gk : GenKill p) {U x : List β} (gen : ∀ n, gk.gen n ⊆ U) (sub : x ⊆ U)
    (n : Nat) :
    p.transfer n x ⊆ U := by
  intro a ha
  rcases (gk.mem_transfer n x a).mp ha with h | ⟨h, -⟩
  · exact gen n h
  · exact sub h

variable [Std.TransOrd β] [Std.LawfulEqOrd β]

/-- Merged by union from the empty set, sets are ordered by inclusion; a canonical set rises at
most as often as a universe holding every generated item has members. -/
def unionFramework (gk : GenKill p) (U : List β) (init : p.init = [])
    (merge : p.merge = Sorted.unionAll) (gen : ∀ n, gk.gen n ⊆ U)
    (height : U.length ≤ p.height) : p.Framework where
  le x y := x ⊆ y
  canon := Sorted.Canon
  le_refl _ := List.Subset.refl _
  le_trans := List.Subset.trans
  le_antisymm hx hy xy yx := Sorted.eq_of_mem_iff hx hy fun _ => ⟨fun h => xy h, fun h => yx h⟩
  canon_init := init ▸ Sorted.canon_nil
  canon_merge xs := merge ▸ Sorted.canon_unionAll xs
  canon_transfer n _ h := gk.canon_transfer n h
  init_le _ := init ▸ List.nil_subset _
  merge_mono {xs ys} rel _ _ := by
    rw [merge]
    intro a ha
    obtain ⟨s, hs, as⟩ := Sorted.mem_unionAll.mp ha
    obtain ⟨t, ht, st⟩ := exists_of_forall₂ rel hs
    exact Sorted.mem_unionAll.mpr ⟨t, ht, st as⟩
  transfer_mono n _ _ _ _ sub := gk.transfer_subset sub n
  bounded x := x ⊆ U
  bounded_init := init ▸ List.nil_subset _
  bounded_merge {xs} within := by
    rw [merge]
    intro a ha
    obtain ⟨s, hs, as⟩ := Sorted.mem_unionAll.mp ha
    exact within s hs as
  bounded_transfer n _ sub := gk.transfer_within gen sub n
  rank := List.length
  height := U.length
  rank_le canon sub := canon.nodup.length_le_of_subset sub
  rank_lt hx hy _ _ sub ne := Sorted.length_lt_of_subset hx hy sub ne
  height_le := height

/-- Merged by intersection from a canonical universe holding every generated item, canonical
subsets of the universe are ordered by reverse inclusion, and fall at most as often as the
universe has members. -/
def interFramework (gk : GenKill p) (U : List β) (canonU : Sorted.Canon U) (init : p.init = U)
    (merge : p.merge = fun xs => xs.foldl Sorted.inter U) (gen : ∀ n, gk.gen n ⊆ U)
    (height : U.length ≤ p.height) : p.Framework where
  le x y := y ⊆ x
  canon x := Sorted.Canon x ∧ x ⊆ U
  le_refl _ := List.Subset.refl _
  le_trans xy yz := List.Subset.trans yz xy
  le_antisymm hx hy xy yx :=
    Sorted.eq_of_mem_iff hx.1 hy.1 fun _ => ⟨fun h => yx h, fun h => xy h⟩
  canon_init := by
    rw [init]
    exact ⟨canonU, List.Subset.refl _⟩
  canon_merge xs := by
    rw [merge]
    refine ⟨Sorted.canon_foldl_inter xs canonU, fun a ha => ?_⟩
    exact (Sorted.mem_foldl_inter.mp ha).1
  canon_transfer n _ h := ⟨gk.canon_transfer n h.1, gk.transfer_within gen h.2 n⟩
  init_le h := init ▸ h.2
  merge_mono {xs ys} rel _ _ := by
    rw [merge]
    intro a ha
    obtain ⟨inU, inAll⟩ := Sorted.mem_foldl_inter.mp ha
    refine Sorted.mem_foldl_inter.mpr ⟨inU, fun s hs => ?_⟩
    obtain ⟨t, ht, ts⟩ := exists_of_forall₂ rel hs
    exact ts (inAll t ht)
  transfer_mono n _ _ _ _ sub := gk.transfer_subset sub n
  bounded _ := True
  bounded_init := trivial
  bounded_merge _ := trivial
  bounded_transfer _ _ _ := trivial
  rank x := U.length - x.length
  height := U.length
  rank_le _ _ := Nat.sub_le _ _
  rank_lt {x y} hx hy _ _ sub ne := by
    have shorter := Sorted.length_lt_of_subset hy.1 hx.1 sub (Ne.symm ne)
    have within := hx.1.nodup.length_le_of_subset hx.2
    omega
  height_le := height

end GenKill

end BrilFlow
