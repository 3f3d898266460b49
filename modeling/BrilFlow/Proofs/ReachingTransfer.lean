import BrilFlow.Proofs.ReachingLive

/-! Reaching definitions block by block: the transfer is the effect of the operations in order, each
write ending the variable's other sites and starting its own. -/
namespace BrilFlow

/-- One operation's effect on the sites that reach past it: writing `v` at index `i` of block
`name` ends every site of `v` and starts `⟨v, name, i⟩`. -/
def reachingStep (name : String) (S : List DefSite) (oi : Operation × Nat) : List DefSite :=
  match oi.1.dest with
  | none => S
  | some v => Sorted.insert ⟨v, name, oi.2⟩ (S.filter fun d => d.var != v)

def reachingThrough (nb : NamedBlock) (S : List DefSite) : List DefSite :=
  nb.block.ops.zipIdx.foldl (reachingStep nb.name) S

namespace Block

variable {ops : List Operation} {o : Operation} {v : String} {i : Nat}

theorem writesAt_push : ({ ops := ops ++ [o] } : Block).WritesAt v i ↔
    ({ ops := ops } : Block).WritesAt v i ∨ (i = ops.length ∧ o.dest = some v) := by
  simp only [WritesAt, List.getElem?_append]
  rcases Nat.lt_trichotomy i ops.length with lt | rfl | gt
  · simp [lt, Nat.ne_of_lt lt]
  · simp
  · simp [Nat.not_lt.mpr (Nat.le_of_lt gt), Nat.ne_of_gt gt, show i - ops.length ≠ 0 by omega]

theorem writes_push : ({ ops := ops ++ [o] } : Block).Writes v ↔
    ({ ops := ops } : Block).Writes v ∨ o.dest = some v := by
  simp [Writes]

theorem lastWrite_push_of_dest (writes : o.dest = some v) :
    ({ ops := ops ++ [o] } : Block).LastWrite v i ↔ i = ops.length := by
  constructor
  · rintro ⟨at_i, last⟩
    have latest := last ops.length (writesAt_push.mpr (.inr ⟨rfl, writes⟩))
    have within : i ≤ ops.length := by
      rcases writesAt_push.mp at_i with earlier | ⟨rfl, -⟩
      · exact Nat.le_of_lt earlier.lt_length
      · exact Nat.le_refl _
    omega
  · rintro rfl
    refine ⟨writesAt_push.mpr (.inr ⟨rfl, writes⟩), fun j hj => ?_⟩
    have := WritesAt.lt_length hj
    simp at this
    omega

theorem lastWrite_push_of_ne (other : o.dest ≠ some v) :
    ({ ops := ops ++ [o] } : Block).LastWrite v i ↔ ({ ops := ops } : Block).LastWrite v i := by
  have same : ∀ j, ({ ops := ops ++ [o] } : Block).WritesAt v j ↔
      ({ ops := ops } : Block).WritesAt v j := fun j => by simp [writesAt_push, other]
  simp only [LastWrite, same]

end Block

section Through

variable {name : String} {S : List DefSite} {d : DefSite}

/-- After some operations, a site reaches when it reached before and no operation wrote its
variable, or when it is the last write of its variable among them. -/
theorem mem_foldl_reachingStep (ops : List Operation) :
    d ∈ ops.zipIdx.foldl (reachingStep name) S ↔
      (d ∈ S ∧ ¬({ ops := ops } : Block).Writes d.var) ∨
        (d.block = name ∧ ({ ops := ops } : Block).LastWrite d.var d.index) := by
  induction ops using List.reverseRecOn with
  | nil => simp [Block.Writes, Block.LastWrite, Block.WritesAt]
  | append_singleton ops o ih =>
    rw [List.zipIdx_append, List.foldl_append, List.zipIdx_singleton, List.foldl_cons,
      List.foldl_nil, Nat.zero_add]
    cases dest : o.dest with
    | none =>
      simp only [reachingStep, dest, ih, Block.writes_push, reduceCtorEq, or_false,
        Block.lastWrite_push_of_ne (show o.dest ≠ some d.var by simp [dest])]
    | some v =>
      simp only [reachingStep, dest, Sorted.mem_insert, List.mem_filter, ih, bne_iff_ne, ne_eq,
        Block.writes_push]
      by_cases same : d.var = v
      · -- the operation writes the site's variable: only the new site survives
        rw [Block.lastWrite_push_of_dest (show o.dest = some d.var by rw [dest, same])]
        obtain ⟨var, block, index⟩ := d
        simp only at same
        subst same
        simp only [DefSite.mk.injEq, true_and, not_true_eq_false, and_false, or_false,
          or_true, false_or]
      · rw [Block.lastWrite_push_of_ne (show o.dest ≠ some d.var by simp [dest, Ne.symm same])]
        have fresh : d ≠ ⟨v, name, ops.length⟩ := fun h => same (by rw [h])
        simp [fresh, same, Ne.symm same]

theorem mem_reachingThrough {nb : NamedBlock} :
    d ∈ reachingThrough nb S ↔ (d ∈ S ∧ ¬nb.block.Writes d.var) ∨
      (d.block = nb.name ∧ nb.block.LastWrite d.var d.index) :=
  mem_foldl_reachingStep nb.block.ops

theorem canon_reachingThrough {nb : NamedBlock} (canon : Sorted.Canon S) :
    Sorted.Canon (reachingThrough nb S) := by
  refine foldl_induction Sorted.Canon _ _ canon fun acc h oi _ => ?_
  unfold reachingStep
  split
  · exact h
  · exact Sorted.canon_insert _ (h.filter _)

end Through

section Tables

variable {g : Cfg} {k : Nat} {nb : NamedBlock} {d : DefSite}

theorem Cfg.LastWriteSite.eq {s : DefSite} (hs : g.LastWriteSite k s) (hd : g.LastWriteSite k d)
    (same : s.var = d.var) : s = d := by
  obtain ⟨nb, get, named, last⟩ := hs
  obtain ⟨nb', get', named', last'⟩ := hd
  obtain rfl : nb = nb' := Option.some.inj (get.symm.trans get')
  have before := last.2 d.index (same ▸ last'.1)
  have after := last'.2 s.index (same ▸ last.1)
  obtain ⟨var, block, index⟩ := s
  simp only at same named before after ⊢
  rw [same, ← named, named', Nat.le_antisymm after before]

theorem Cfg.lastWriteSite_iff_of_get (at_k : g.blocks[k]? = some nb) :
    g.LastWriteSite k d ↔ d.block = nb.name ∧ nb.block.LastWrite d.var d.index := by
  simp [Cfg.LastWriteSite, at_k, eq_comm]

theorem Cfg.writes_iff_of_get (at_k : g.blocks[k]? = some nb) (v : String) :
    g.Writes k v ↔ nb.block.Writes v := by
  simp [Cfg.Writes, Cfg.block?, at_k]

theorem mem_reachingKill_iff (at_k : g.blocks[k]? = some nb) :
    d ∈ (reachingGenKill g).kill k ↔
      (d ∈ g.sites ∧ nb.block.Writes d.var) ∧ d ∉ (reachingGenKill g).gen k := by
  constructor
  · intro killed
    obtain ⟨site, s, generated, same, other⟩ := mem_reachingKill.mp killed
    have writes := (Cfg.writes_iff_of_get at_k _).mp (writes_of_mem_reachingKill killed)
    refine ⟨⟨site, writes⟩, fun both => ?_⟩
    exact other ((mem_reachingGen.mp generated).eq (mem_reachingGen.mp both) same)
  · rintro ⟨⟨site, writes⟩, fresh⟩
    by_contra kept
    exact fresh (mem_reachingGen_of_writes site ((Cfg.writes_iff_of_get at_k _).mpr writes) kept)

/-- On sites of the function, the block's transfer keeps a site whose variable the block does
not write and adds the block's last writes. -/
theorem mem_reachingTransfer (at_k : g.blocks[k]? = some nb) {S : List DefSite}
    (sub : S ⊆ g.sites) :
    d ∈ (reachingProblem g).transfer k S ↔ (d ∈ S ∧ ¬nb.block.Writes d.var) ∨
      (d.block = nb.name ∧ nb.block.LastWrite d.var d.index) := by
  rw [(reachingGenKill g).mem_transfer, mem_reachingKill_iff at_k, mem_reachingGen,
    Cfg.lastWriteSite_iff_of_get at_k]
  constructor
  · rintro (generated | ⟨mem, alive⟩)
    · exact .inr generated
    · by_cases writes : nb.block.Writes d.var
      · exact .inr (by simpa [sub mem, writes] using alive)
      · exact .inl ⟨mem, writes⟩
  · rintro (⟨mem, quiet⟩ | generated)
    · exact .inr ⟨mem, fun killed => quiet killed.1.2⟩
    · exact .inl generated

end Tables

/-- What reaching definitions has at block `k` of a graph, the block `nb`: it generates the
last write of each variable the block writes, kills the other sites of the function of those
variables, so never a site it generates, and on a set of the function's sites its transfer is
the block's operations applied one after the other. -/
structure ReachingBlock (g : Cfg) (k : Nat) (nb : NamedBlock) : Prop where
  mem_gen : ∀ d, d ∈ (reachingGen g)[k]?.getD [] ↔
    d.block = nb.name ∧ nb.block.LastWrite d.var d.index
  mem_kill : ∀ d, d ∈ (reachingKill g)[k]?.getD [] ↔
    (d ∈ g.sites ∧ nb.block.Writes d.var) ∧ d ∉ (reachingGen g)[k]?.getD []
  disjoint : ∀ d ∈ (reachingGen g)[k]?.getD [], d ∉ (reachingKill g)[k]?.getD []
  transfer_eq : ∀ S, Sorted.Canon S → S ⊆ g.sites →
    (reachingProblem g).transfer k S = reachingThrough nb S

theorem reaching_gen_kill_sequential (g : Cfg) (k : Nat) (nb : NamedBlock)
    (at_k : g.blocks[k]? = some nb) : ReachingBlock g k nb where
  mem_gen _ := mem_reachingGen.trans (Cfg.lastWriteSite_iff_of_get at_k)
  mem_kill _ := mem_reachingKill_iff at_k
  disjoint _ generated killed := ((mem_reachingKill_iff at_k).mp killed).2 generated
  transfer_eq _ canon sub := Sorted.eq_of_mem_iff ((reachingGenKill g).canon_transfer k canon)
    (canon_reachingThrough canon) fun _ =>
      (mem_reachingTransfer at_k sub).trans mem_reachingThrough.symm

theorem reaching_gen_kill_sequential_top :
    loopGraph.blocks[0]? = some (loopGraph.blocks[0]?.getD default) ∧
      ReachingBlock loopGraph 0 (loopGraph.blocks[0]?.getD default) :=
  ⟨rfl, reaching_gen_kill_sequential loopGraph 0 _ rfl⟩

end BrilFlow
