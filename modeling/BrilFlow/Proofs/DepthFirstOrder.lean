import BrilFlow.Proofs.DepthFirst

/-! The orders a depth-first walk leaves: in reverse postorder every retreating edge goes back or
stays put and every other edge of a reached block goes strictly forward, so reverse postorder
sorts the reached graph once its retreating edges are removed. -/
namespace BrilFlow

open scoped List

namespace Walk

/-- From `w` to `w'`, inside the visit of `b`, the walk finishes the blocks `new` and records the
retreating edges `newR`, each list put in front of the old one. A successor entry of a new block
was recorded retreating or leads to a block finished before it; a new retreating edge leaves a new
block or `b`, and enters a block active in `w`, its own source, or a block finished after it. -/
structure Orders (g : Cfg) (b : Nat) (w w' : Walk) (new : List Nat) (newR : List (Nat × Nat)) :
    Prop where
  finished_eq : w'.finished = new ++ w.finished
  retreating_eq : w'.retreating = newR ++ w.retreating
  forward : ∀ x ∈ new, ∀ y ∈ g.successors x, (x, y) ∈ w'.retreating ∨ [x, y] <+ w'.finished
  backward : ∀ x y, (x, y) ∈ newR → y ∈ g.successors x ∧ (x ∈ new ∨ x = b) ∧
    (w.state[y]? = some .active ∨ y = x ∨ [y, x] <+ w'.finished)

def OrdersWithin (g : Cfg) (fuel : Nat) : Prop :=
  ∀ b w, Sound g w → w.state[b]? = some .unseen → (unseenSet g w).card ≤ fuel →
    ∃ new newR, Orders g b w (visit g fuel b w) new newR

/-- Visiting with `fuel` from an unseen block of a sound walk with at most `fuel` unseen blocks
gives the walk that any more fuel gives. -/
def FuelSuffices (g : Cfg) (fuel : Nat) : Prop :=
  ∀ b w, Sound g w → w.state[b]? = some .unseen → (unseenSet g w).card ≤ fuel →
    ∀ extra, visit g (fuel + extra) b w = visit g fuel b w

variable {g : Cfg} {b s fuel : Nat} {w w₁ w₂ : Walk} {n₁ n₂ : List Nat}
  {r₁ r₂ : List (Nat × Nat)}

namespace Orders

theorem refl (g : Cfg) (b : Nat) (w : Walk) : Orders g b w w [] [] where
  finished_eq := rfl
  retreating_eq := rfl
  forward _ h := by simp at h
  backward _ _ h := by simp at h

theorem trans (first : Orders g b w w₁ n₁ r₁) (advances : Advances g b w w₁)
    (second : Orders g b w₁ w₂ n₂ r₂) : Orders g b w w₂ (n₂ ++ n₁) (r₂ ++ r₁) where
  finished_eq := by rw [second.finished_eq, first.finished_eq, List.append_assoc]
  retreating_eq := by rw [second.retreating_eq, first.retreating_eq, List.append_assoc]
  forward x hx y hy := by
    rcases List.mem_append.mp hx with h | h
    · exact second.forward x h y hy
    · -- both lists only grow at the front, so what the first stretch left stays
      rw [second.retreating_eq, second.finished_eq]
      exact (first.forward x h y hy).imp (List.mem_append_right _)
        (·.trans (List.sublist_append_right _ _))
  backward x y h := by
    rcases List.mem_append.mp h with h | h
    · obtain ⟨edge, source, target⟩ := second.backward x y h
      exact ⟨edge, source.imp_left (List.mem_append_left _),
        target.imp_left (advances.active_iff y).mp⟩
    · obtain ⟨edge, source, target⟩ := first.backward x y h
      refine ⟨edge, source.imp_left (List.mem_append_right _), ?_⟩
      rw [second.finished_eq]
      exact target.imp_right (Or.imp_right (·.trans (List.sublist_append_right _ _)))

theorem rebase (orders : Orders g s w w₁ n₁ r₁) (mem : s ∈ n₁) (b : Nat) :
    Orders g b w w₁ n₁ r₁ where
  finished_eq := orders.finished_eq
  retreating_eq := orders.retreating_eq
  forward := orders.forward
  backward x y h := by
    obtain ⟨edge, source, target⟩ := orders.backward x y h
    refine ⟨edge, .inl ?_, target⟩
    rcases source with mem' | rfl
    · exact mem'
    · exact mem

end Orders

theorem takeSuccessor_orders (hg : g.WellFormed) (visits : VisitsWithin g fuel)
    (orders : OrdersWithin g fuel) (edge : s ∈ g.successors b) (sound : Sound g w)
    (few : (unseenSet g w).card ≤ fuel) :
    ∃ new newR, Orders g b w (takeSuccessor g fuel b w s) new newR ∧
      ((b, s) ∈ (takeSuccessor g fuel b w s).retreating ∨
        s ∈ (takeSuccessor g fuel b w s).finished) := by
  unfold takeSuccessor
  split
  · next unseen =>
    obtain ⟨sound', -, finished, -⟩ := visits s w sound unseen few
    obtain ⟨new, newR, inner⟩ := orders s w sound unseen few
    have done : s ∈ (visit g fuel s w).finished := (sound'.mem_finished s).mpr finished
    -- `s` was unseen, so it is none of the blocks finished before
    have mem : s ∈ new := by
      rw [inner.finished_eq] at done
      rcases List.mem_append.mp done with h | h
      · exact h
      · simp [(sound.mem_finished s).mp h] at unseen
    exact ⟨new, newR, inner.rebase mem b, .inr done⟩
  · next active =>
    refine ⟨[], [(b, s)], ⟨rfl, rfl, by simp, fun x y h => ?_⟩, .inl List.mem_cons_self⟩
    obtain ⟨rfl, rfl⟩ : x = b ∧ y = s := by simpa using h
    exact ⟨edge, .inr rfl, .inl active⟩
  · next notUnseen notActive =>
    -- a successor is in range, so one that is neither unseen nor active is finished
    have lt : s < w.state.size := sound.size ▸ hg.succ_lt edge
    have finished := finished_of_ne_unseen_of_ne_active lt notUnseen notActive
    exact ⟨[], [], .refl g b w, .inr ((sound.mem_finished s).mpr finished)⟩

theorem foldl_takeSuccessor_orders (hg : g.WellFormed) (visits : VisitsWithin g fuel)
    (orders : OrdersWithin g fuel) (ss : List Nat) (edges : ∀ s ∈ ss, s ∈ g.successors b)
    (sound : Sound g w) (few : (unseenSet g w).card ≤ fuel) :
    ∃ new newR, Orders g b w (ss.foldl (takeSuccessor g fuel b) w) new newR ∧
      ∀ s ∈ ss, (b, s) ∈ (ss.foldl (takeSuccessor g fuel b) w).retreating ∨
        s ∈ (ss.foldl (takeSuccessor g fuel b) w).finished := by
  induction ss generalizing w with
  | nil => exact ⟨[], [], .refl g b w, by simp⟩
  | cons s ss ih =>
    have edge := edges s List.mem_cons_self
    obtain ⟨sound₁, advances₁, -⟩ := takeSuccessor_spec hg visits edge sound few
    obtain ⟨n₁, r₁, first, taken⟩ := takeSuccessor_orders hg visits orders edge sound few
    have few₁ := (Finset.card_le_card advances₁.unseenSet_subset).trans few
    obtain ⟨n₂, r₂, second, rest⟩ :=
      ih (fun s' h => edges s' (List.mem_cons_of_mem _ h)) sound₁ few₁
    refine ⟨n₂ ++ n₁, r₂ ++ r₁, first.trans advances₁ second, List.forall_mem_cons.mpr ⟨?_, rest⟩⟩
    rw [List.foldl_cons, second.retreating_eq, second.finished_eq]
    exact taken.imp (List.mem_append_right _) (List.mem_append_right _)

theorem orders_finish {wl : Walk} {new : List Nat} {newR : List (Nat × Nat)}
    (unseen : w.state[b]? = some .unseen) (orders : Orders g b (enterBlock b w) wl new newR)
    (seen : ∀ s ∈ g.successors b, (b, s) ∈ wl.retreating ∨ s ∈ wl.finished) :
    Orders g b w (finishBlock b wl) (b :: new) newR where
  finished_eq := by
    show b :: wl.finished = b :: new ++ w.finished
    rw [orders.finished_eq]
    rfl
  retreating_eq := orders.retreating_eq
  forward x hx y hy := by
    show (x, y) ∈ wl.retreating ∨ [x, y] <+ b :: wl.finished
    rcases List.mem_cons.mp hx with rfl | hx
    · exact (seen y hy).imp_right fun h => (List.singleton_sublist.mpr h).cons_cons x
    · exact (orders.forward x hx y hy).imp_right (·.cons b)
  backward x y h := by
    obtain ⟨edge, source, target⟩ := orders.backward x y h
    refine ⟨edge, source.imp_left (List.mem_cons_of_mem b), ?_⟩
    show _ ∨ y = x ∨ [y, x] <+ b :: wl.finished
    rw [enterBlock_state (lt_size_of_getElem? unseen)] at target
    by_cases same : b = y
    · -- an edge into `b` itself leaves `b` or a block finished inside the visit of `b`
      subst same
      rcases source with mem | rfl
      · have finished : x ∈ wl.finished := orders.finished_eq ▸ List.mem_append_left _ mem
        exact .inr (.inr ((List.singleton_sublist.mpr finished).cons_cons b))
      · exact .inr (.inl rfl)
    · rw [if_neg same] at target
      exact target.imp_right (Or.imp_right (·.cons b))

theorem ordersWithin (hg : g.WellFormed) (fuel : Nat) : OrdersWithin g fuel := by
  induction fuel with
  | zero =>
    intro b w sound unseen few
    have := card_unseenSet_enter sound unseen
    omega
  | succ fuel ih =>
    intro b w sound unseen few
    rw [visit_succ]
    have fewer := card_unseenSet_enter sound unseen
    obtain ⟨new, newR, loop, seen⟩ := foldl_takeSuccessor_orders hg (visitsWithin hg fuel) ih
      (g.successors b) (fun _ h => h) (sound_enter sound unseen) (by omega)
    exact ⟨b :: new, newR, orders_finish unseen loop seen⟩

theorem foldl_takeSuccessor_fuel (hg : g.WellFormed) (visits : VisitsWithin g fuel)
    (enough : FuelSuffices g fuel) (extra : Nat) (ss : List Nat)
    (edges : ∀ s ∈ ss, s ∈ g.successors b) (sound : Sound g w)
    (few : (unseenSet g w).card ≤ fuel) :
    ss.foldl (takeSuccessor g (fuel + extra) b) w = ss.foldl (takeSuccessor g fuel b) w := by
  induction ss generalizing w with
  | nil => rfl
  | cons s ss ih =>
    have edge := edges s List.mem_cons_self
    obtain ⟨sound₁, advances₁, -⟩ := takeSuccessor_spec hg visits edge sound few
    have few₁ := (Finset.card_le_card advances₁.unseenSet_subset).trans few
    have step : takeSuccessor g (fuel + extra) b w s = takeSuccessor g fuel b w s := by
      unfold takeSuccessor
      split
      · next unseen => exact enough s w sound unseen few extra
      · rfl
      · rfl
    rw [List.foldl_cons, List.foldl_cons, step]
    exact ih (fun s' h => edges s' (List.mem_cons_of_mem _ h)) sound₁ few₁

theorem fuelSuffices (hg : g.WellFormed) (fuel : Nat) : FuelSuffices g fuel := by
  induction fuel with
  | zero =>
    intro b w sound unseen few
    have := card_unseenSet_enter sound unseen
    omega
  | succ fuel ih =>
    intro b w sound unseen few extra
    have fewer := card_unseenSet_enter sound unseen
    rw [Nat.add_right_comm, visit_succ, visit_succ, foldl_takeSuccessor_fuel hg
      (visitsWithin hg fuel) ih extra (g.successors b) (fun _ h => h) (sound_enter sound unseen)
      (by omega)]

end Walk

namespace Cfg

open Walk

variable {g : Cfg} {u v : Nat}

/-- From the fresh walk, the walk from the entry finishes the blocks of reverse postorder and
records the retreating edges as `Orders` says. -/
theorem orders_depthFirst (hg : g.WellFormed) (nonempty : 0 < g.size) :
    Orders g 0 (fresh g) g.depthFirst g.depthFirst.finished g.depthFirst.retreating := by
  obtain ⟨new, newR, orders⟩ := depthFirst_eq hg nonempty ▸
    ordersWithin hg g.size 0 _ (sound_start g) (fresh_entry nonempty) (card_unseenSet_fresh g)
  have finished := orders.finished_eq
  have retreating := orders.retreating_eq
  simp only [fresh, List.append_nil] at finished retreating
  exact finished ▸ retreating ▸ orders

/-- A retreating edge leaves a reached block, is a successor entry, and in reverse postorder
enters its own source or a block before it. -/
theorem backEdge_spec (hg : g.WellFormed) (h : (u, v) ∈ g.backEdges) :
    g.Reaches .forward 0 u ∧ v ∈ g.successors u ∧ (v = u ∨ [v, u] <+ g.reversePostorder) := by
  by_cases nonempty : 0 < g.size
  · rw [backEdges, List.mem_reverse] at h
    obtain ⟨edge, source, target⟩ := (orders_depthFirst hg nonempty).backward u v h
    have reach : g.Reaches .forward 0 u := by
      rcases source with finished | rfl
      · exact (mem_reversePostorder hg).mp finished
      · exact .start nonempty
    refine ⟨reach, edge, ?_⟩
    -- nothing is active in the fresh walk
    rcases target with active | same | before
    · rw [fresh_state] at active
      split at active <;> simp at active
    · exact .inl same
    · exact .inr before
  · simp [backEdges, depthFirst, depthFirstRun_of_empty (show g.size = 0 by omega)] at h

/-- A successor entry of a reached block that is not a retreating edge goes forward in reverse
postorder. -/
theorem before_of_not_backEdge (hg : g.WellFormed) (reach : g.Reaches .forward 0 u)
    (edge : v ∈ g.successors u) (notBack : (u, v) ∉ g.backEdges) :
    [u, v] <+ g.reversePostorder := by
  have mem : u ∈ g.depthFirst.finished := (mem_reversePostorder hg).mpr reach
  rcases (orders_depthFirst hg reach.start_lt).forward u mem v edge with back | before
  · exact absurd (List.mem_reverse.mpr back) notBack
  · exact before

/-- The depth-first walk of a graph, read through its reverse postorder and its retreating
edges: reverse postorder lists each block the entry reaches once, the entry first; every
retreating edge is a successor entry of a reached block whose target is the block itself or
comes before it; every other successor entry of a reached block goes strictly forward. The
explicit-stack loop empties its stack within its steps, and gives the walk that the recursive
visit gives with the block count or more as its nesting fuel. -/
structure DepthFirstOrder (g : Cfg) : Prop where
  mem_iff : ∀ k, k ∈ g.reversePostorder ↔ g.Reaches .forward 0 k
  nodup : g.reversePostorder.Nodup
  head : 0 < g.size → g.reversePostorder.head? = some 0
  back : ∀ u v, (u, v) ∈ g.backEdges →
    g.Reaches .forward 0 u ∧ v ∈ g.successors u ∧ (v = u ∨ [v, u] <+ g.reversePostorder)
  forward : ∀ u v, g.Reaches .forward 0 u → v ∈ g.successors u → (u, v) ∉ g.backEdges →
    [u, v] <+ g.reversePostorder
  enough_fuel : 0 < g.size → ∀ fuel, g.size ≤ fuel → Walk.visit g fuel 0 (Walk.fresh g) = g.depthFirst
  terminates : g.depthFirstRun.1 = []

end Cfg

theorem depthFirst_order (blocks : List NamedBlock) (g : Cfg) (h : Cfg.ofBlocks blocks = .ok g) :
    g.DepthFirstOrder := by
  have hg := Cfg.ofBlocks_wellFormed h
  refine ⟨fun k => Cfg.mem_reversePostorder hg, Cfg.nodup_reversePostorder hg,
    Cfg.reversePostorder_head hg, fun u v => Cfg.backEdge_spec hg,
    fun u v => Cfg.before_of_not_backEdge hg, fun nonempty fuel enough => ?_,
    Cfg.depthFirstRun_empties g⟩
  obtain ⟨extra, rfl⟩ := Nat.exists_eq_add_of_le enough
  rw [Cfg.depthFirst_eq hg nonempty]
  exact Walk.fuelSuffices hg g.size 0 _ (Walk.sound_start g) (Cfg.fresh_entry nonempty)
    (Walk.card_unseenSet_fresh g) extra

/-- The graph of a block that loops on itself before falling through to a returning block. -/
theorem depthFirst_order_loop :
    Cfg.ofBlocks loopGraph.blocks.toList = .ok loopGraph ∧ loopGraph.DepthFirstOrder :=
  have built : Cfg.ofBlocks loopGraph.blocks.toList = .ok loopGraph := by decide +kernel
  ⟨built, depthFirst_order _ _ built⟩

end BrilFlow
