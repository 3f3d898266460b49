import BrilFlow.Proofs.SortedSet

/-! The writes of a block. Scanning a block from its end while remembering the variables seen, the
first write of a variable the scan meets is the block's last, so the scan generates exactly the
last write of each variable. -/
namespace BrilFlow

namespace Block

def WritesAt (b : Block) (v : String) (i : Nat) : Prop :=
  ∃ o, b.ops[i]? = some o ∧ o.dest = some v

/-- Operation `i` is the block's last write of `v`. -/
def LastWrite (b : Block) (v : String) (i : Nat) : Prop :=
  b.WritesAt v i ∧ ∀ j, b.WritesAt v j → j ≤ i

end Block

section Scan

variable {name : String}

theorem pairwise_zipIdx_lt {α : Type} : ∀ (l : List α) (k : Nat), (l.zipIdx k).Pairwise (·.2 < ·.2)
  | [], _ => .nil
  | _ :: l, k => List.pairwise_cons.mpr
      ⟨fun _ mem => List.le_snd_of_mem_zipIdx mem, pairwise_zipIdx_lt l (k + 1)⟩

theorem lastSites_eq_foldr (nb : NamedBlock) :
    lastSites nb = (nb.block.ops.zipIdx.foldr (fun oi acc => lastWriteStep nb.name acc oi) ([], [])).1 := by
  rw [lastSites, List.foldl_reverse]

theorem mem_scan_seen (v : String) : ∀ ois : List (Operation × Nat),
    v ∈ (ois.foldr (fun oi acc => lastWriteStep name acc oi) ([], [])).2 ↔
      ∃ oi ∈ ois, oi.1.dest = some v
  | [] => by simp
  | (o, i) :: ois => by
    rw [List.foldr_cons, lastWriteStep]
    cases dest : o.dest with
    | none => simp [mem_scan_seen v ois, dest]
    | some w =>
      dsimp only
      split
      · next seen =>
        -- a variable met again is already among those seen
        have earlier := (mem_scan_seen w ois).mp (List.contains_iff_mem.mp seen)
        simp only [mem_scan_seen v ois, List.mem_cons, exists_eq_or_imp, dest, Option.some.injEq]
        constructor
        · exact .inr
        · rintro (rfl | later)
          · exact earlier
          · exact later
      · simp [mem_scan_seen v ois, dest, eq_comm]

/-- The sites the scan generates over operations listed with increasing indices: each is the
write of its variable with the largest index. -/
theorem mem_scan_sites (d : DefSite) : ∀ ois : List (Operation × Nat), ois.Pairwise (·.2 < ·.2) →
    (d ∈ (ois.foldr (fun oi acc => lastWriteStep name acc oi) ([], [])).1 ↔
      d.block = name ∧ (∃ o, (o, d.index) ∈ ois ∧ o.dest = some d.var) ∧
        ∀ oi ∈ ois, oi.1.dest = some d.var → oi.2 ≤ d.index)
  | [], _ => by simp
  | (o, i) :: ois, increasing => by
    obtain ⟨later, increasing⟩ := List.pairwise_cons.mp increasing
    have ih := mem_scan_sites d ois increasing
    rw [List.foldr_cons, lastWriteStep]
    cases dest : o.dest with
    | none => simp [ih, dest, or_and_right, exists_or]
    | some w =>
      dsimp only
      split
      · next seen =>
        -- `w` is written later on, so this write is not the last
        obtain ⟨⟨o', j⟩, mem, dest'⟩ := (mem_scan_seen w ois).mp (List.contains_iff_mem.mp seen)
        simp only [ih, List.mem_cons, forall_eq_or_imp, dest, Option.some.injEq, Prod.mk.injEq]
        constructor
        · rintro ⟨block, ⟨o'', at_, dest''⟩, last⟩
          refine ⟨block, ⟨o'', .inr at_, dest''⟩, fun _ => Nat.le_of_lt (later _ at_), last⟩
        · rintro ⟨block, ⟨o'', (⟨rfl, rfl⟩ | at_), dest''⟩, -, last⟩
          · have := later _ mem
            have := last _ mem (dest'.trans (dest ▸ dest''))
            omega
          · exact ⟨block, ⟨o'', at_, dest''⟩, last⟩
      · next seen =>
        have fresh : ∀ oi ∈ ois, oi.1.dest ≠ some w := fun oi mem written =>
          seen (List.contains_iff_mem.mpr ((mem_scan_seen w ois).mpr ⟨oi, mem, written⟩))
        simp only [Sorted.mem_insert, ih, List.mem_cons, forall_eq_or_imp, dest, Option.some.injEq,
          Prod.mk.injEq]
        constructor
        · rintro (rfl | ⟨block, ⟨o'', at_, dest''⟩, last⟩)
          · exact ⟨rfl, ⟨o, .inl ⟨rfl, rfl⟩, dest⟩, fun _ => Nat.le_refl _,
              fun oi mem written => absurd written (fresh oi mem)⟩
          · refine ⟨block, ⟨o'', .inr at_, dest''⟩, fun same => ?_, last⟩
            exact absurd (same ▸ dest'') (fresh _ at_)
        · rintro ⟨block, ⟨o'', (⟨rfl, rfl⟩ | at_), dest''⟩, -, last⟩
          · rw [dest, Option.some.injEq] at dest''
            exact .inl (by cases d; simp_all)
          · exact .inr ⟨block, ⟨o'', at_, dest''⟩, last⟩

end Scan

theorem mem_sitesOf {nb : NamedBlock} {d : DefSite} :
    d ∈ sitesOf nb ↔ d.block = nb.name ∧ nb.block.WritesAt d.var d.index := by
  simp only [sitesOf, List.mem_filterMap, List.mem_zipIdx_iff_getElem?, Option.map_eq_some_iff,
    Block.WritesAt]
  constructor
  · rintro ⟨⟨o, i⟩, get, v, dest, rfl⟩
    exact ⟨rfl, o, get, dest⟩
  · rintro ⟨name, o, get, dest⟩
    exact ⟨(o, d.index), get, d.var, dest, by cases d; simp_all⟩

/-- A block generates exactly its last write of each variable. -/
theorem mem_lastSites {nb : NamedBlock} {d : DefSite} :
    d ∈ lastSites nb ↔ d.block = nb.name ∧ nb.block.LastWrite d.var d.index := by
  rw [lastSites_eq_foldr, mem_scan_sites d _ (pairwise_zipIdx_lt _ 0)]
  simp only [List.mem_zipIdx_iff_getElem?, Block.LastWrite, Block.WritesAt, Prod.forall]
  constructor
  · rintro ⟨name, writes, last⟩
    exact ⟨name, writes, fun j ⟨o, get, dest⟩ => last o j get dest⟩
  · rintro ⟨name, writes, last⟩
    exact ⟨name, writes, fun o j get dest => last j ⟨o, get, dest⟩⟩

theorem lastSites_subset_sitesOf (nb : NamedBlock) : lastSites nb ⊆ sitesOf nb := fun _ mem =>
  let ⟨name, last⟩ := mem_lastSites.mp mem
  mem_sitesOf.mpr ⟨name, last.1⟩

end BrilFlow
