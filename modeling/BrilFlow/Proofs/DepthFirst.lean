import Mathlib
import BrilFlow.Proofs.Graph
import BrilFlow.Shape.Walk

/-! The depth-first walk. Its stack loop takes one successor entry per step and computes the
recursive visit; a visit finishes exactly the blocks reachable from where it starts, each once,
and each step lowers the unseen blocks plus the pending entries, so the loop's fuel suffices. -/
namespace BrilFlow

theorem Cfg.Reaches.trans {g : Cfg} {d : Direction} {s m n : Nat} (second : g.Reaches d m n)
    (first : g.Reaches d s m) : g.Reaches d s n := by
  induction second with
  | start _ => exact first
  | edge _ edge lt ih => exact .edge ih edge lt

theorem getElem?_setIfInBounds_of_lt {α : Type} {xs : Array α} {i j : Nat} {a : α}
    (lt : i < xs.size) : (xs.setIfInBounds i a)[j]? = if i = j then some a else xs[j]? := by
  simp [Array.getElem?_setIfInBounds, lt]

namespace Walk

/-- The recursive walk: enters block `b`, walks its successors in order, and finishes it. -/
def visit (g : Cfg) : Nat → Nat → Walk → Walk
  | 0, _, w => w
  | fuel + 1, b, w =>
    let w := { w with state := w.state.setIfInBounds b .active }
    let w := (g.successors b).foldl (fun w s =>
      match w.state[s]? with
      | some .unseen => visit g fuel s w
      | some .active => { w with retreating := (b, s) :: w.retreating }
      | _ => w) w
    { w with state := w.state.setIfInBounds b .finished, finished := b :: w.finished }

def enterBlock (b : Nat) (w : Walk) : Walk := { w with state := w.state.setIfInBounds b .active }

def finishBlock (b : Nat) (w : Walk) : Walk :=
  { w with state := w.state.setIfInBounds b .finished, finished := b :: w.finished }

/-- The walk from block `b` taking its successor `s`: it visits an unseen one, records an edge to
an active one as retreating, and passes any other by. -/
def takeSuccessor (g : Cfg) (fuel b : Nat) (w : Walk) (s : Nat) : Walk :=
  match w.state[s]? with
  | some .unseen => visit g fuel s w
  | some .active => { w with retreating := (b, s) :: w.retreating }
  | _ => w

def unseenSet (g : Cfg) (w : Walk) : Finset Nat :=
  (Finset.range g.size).filter fun k => w.state[k]? = some .unseen

/-- One state per block, and the finished blocks listed once each. -/
structure Sound (g : Cfg) (w : Walk) : Prop where
  size : w.state.size = g.size
  mem_finished : ∀ k, k ∈ w.finished ↔ w.state[k]? = some .finished
  nodup : w.finished.Nodup

/-- From `w` to `w'` the active blocks stay as they are, finished blocks stay finished, and every
block entered since is reachable from `b`, finished, and has no unseen successor. -/
structure Advances (g : Cfg) (b : Nat) (w w' : Walk) : Prop where
  active_iff : ∀ k : Nat, w'.state[k]? = some .active ↔ w.state[k]? = some .active
  finished : ∀ k : Nat, w.state[k]? = some .finished → w'.state[k]? = some .finished
  unseen : ∀ k : Nat, w'.state[k]? = some .unseen → w.state[k]? = some .unseen
  entered : ∀ k : Nat, w.state[k]? = some .unseen → w'.state[k]? ≠ some .unseen →
    g.Reaches .forward b k ∧ w'.state[k]? = some .finished ∧
      ∀ s ∈ g.successors k, w'.state[s]? ≠ some .unseen

/-- What a visit from `b` does: the walk stays sound, advances from `b`, and finishes `b` last. -/
structure Visited (g : Cfg) (b : Nat) (w w' : Walk) : Prop where
  sound : Sound g w'
  advances : Advances g b w w'
  finished_self : w'.state[b]? = some .finished
  head : w'.finished.head? = some b

/-- Visiting with `fuel` from an unseen block of a sound walk with at most `fuel` unseen blocks
finishes the block. -/
def VisitsWithin (g : Cfg) (fuel : Nat) : Prop :=
  ∀ b w, Sound g w → w.state[b]? = some .unseen → (unseenSet g w).card ≤ fuel →
    Visited g b w (visit g fuel b w)

variable {g : Cfg} {b s fuel : Nat} {w w' w'' : Walk}

theorem takeSuccessor_of_unseen (unseen : w.state[s]? = some .unseen) :
    takeSuccessor g fuel b w s = visit g fuel s w := by
  unfold takeSuccessor
  rw [unseen]

theorem state_takeSuccessor_of_seen (seen : w.state[s]? ≠ some .unseen) :
    (takeSuccessor g fuel b w s).state = w.state := by
  unfold takeSuccessor
  split
  · next unseen => exact absurd unseen seen
  · rfl
  · rfl

theorem visit_succ : visit g (fuel + 1) b w =
    finishBlock b ((g.successors b).foldl (takeSuccessor g fuel b) (enterBlock b w)) := by
  rw [visit]
  rfl

theorem lt_size_of_getElem? {v : Visit} (h : w.state[b]? = some v) : b < w.state.size :=
  (Array.getElem?_eq_some_iff.mp h).1

theorem finished_of_ne_unseen_of_ne_active (lt : b < w.state.size)
    (unseen : w.state[b]? ≠ some .unseen) (active : w.state[b]? ≠ some .active) :
    w.state[b]? = some .finished := by
  rw [Array.getElem?_eq_getElem lt] at unseen active ⊢
  cases h : w.state[b] <;> simp_all

theorem enterBlock_state (lt : b < w.state.size) (k : Nat) :
    (enterBlock b w).state[k]? = if b = k then some .active else w.state[k]? :=
  getElem?_setIfInBounds_of_lt lt

theorem finishBlock_state (lt : b < w.state.size) (k : Nat) :
    (finishBlock b w).state[k]? = if b = k then some .finished else w.state[k]? :=
  getElem?_setIfInBounds_of_lt lt

namespace Advances

theorem of_state_eq (same : w'.state = w.state) : Advances g b w w' where
  active_iff _ := by rw [same]
  finished _ h := by rwa [same]
  unseen _ h := by rwa [← same]
  entered _ unseen seen := absurd (same ▸ unseen) seen

theorem refl (g : Cfg) (b : Nat) (w : Walk) : Advances g b w w := of_state_eq rfl

theorem trans (first : Advances g b w w') (second : Advances g b w' w'') : Advances g b w w'' where
  active_iff k := (second.active_iff k).trans (first.active_iff k)
  finished k h := second.finished k (first.finished k h)
  unseen k h := first.unseen k (second.unseen k h)
  entered k unseen seen := by
    by_cases still : w'.state[k]? = some .unseen
    · exact second.entered k still seen
    · obtain ⟨reach, finished, closed⟩ := first.entered k unseen still
      exact ⟨reach, second.finished k finished, fun s hs u => closed s hs (second.unseen s u)⟩

theorem of_edge (hg : g.WellFormed) (h : Advances g s w w') (edge : s ∈ g.successors b) :
    Advances g b w w' where
  active_iff := h.active_iff
  finished := h.finished
  unseen := h.unseen
  entered k unseen seen := by
    obtain ⟨reach, finished, closed⟩ := h.entered k unseen seen
    have step : g.Reaches .forward b s :=
      .edge (.start (hg.lt_of_mem_successors edge)) edge (hg.succ_lt edge)
    exact ⟨reach.trans step, finished, closed⟩

theorem unseenSet_subset (h : Advances g b w w') : unseenSet g w' ⊆ unseenSet g w := by
  intro k hk
  simp only [unseenSet, Finset.mem_filter] at hk ⊢
  exact ⟨hk.1, h.unseen k hk.2⟩

end Advances

theorem sound_enter (sound : Sound g w) (unseen : w.state[b]? = some .unseen) :
    Sound g (enterBlock b w) where
  size := by simp [enterBlock, sound.size]
  mem_finished k := by
    show k ∈ w.finished ↔ _
    rw [sound.mem_finished, enterBlock_state (lt_size_of_getElem? unseen)]
    by_cases same : b = k
    · subst same
      simp [unseen]
    · simp [same]
  nodup := sound.nodup

theorem card_unseenSet_enter (sound : Sound g w) (unseen : w.state[b]? = some .unseen) :
    (unseenSet g (enterBlock b w)).card < (unseenSet g w).card := by
  have lt := lt_size_of_getElem? unseen
  apply Finset.card_lt_card
  refine Finset.ssubset_iff_of_subset (fun k hk => ?_) |>.mpr ⟨b, ?_, ?_⟩
  · simp only [unseenSet, Finset.mem_filter, enterBlock_state lt] at hk ⊢
    by_cases same : b = k
    · simp [same] at hk
    · simpa [same] using hk
  · simp only [unseenSet, Finset.mem_filter, Finset.mem_range]
    exact ⟨sound.size ▸ lt, unseen⟩
  · simp [unseenSet, enterBlock_state lt]

theorem visited_finish {wl : Walk} (sound : Sound g w) (unseen : w.state[b]? = some .unseen)
    (soundL : Sound g wl) (loop : Advances g b (enterBlock b w) wl)
    (seen : ∀ s ∈ g.successors b, wl.state[s]? ≠ some .unseen) :
    Visited g b w (finishBlock b wl) := by
  have lt := lt_size_of_getElem? unseen
  have ltL : b < wl.state.size := by rw [soundL.size, ← sound.size]; exact lt
  have entered := enterBlock_state (w := w) lt
  have active : wl.state[b]? = some .active := (loop.active_iff b).mpr (by simp [entered])
  have finishedL := finishBlock_state (w := wl) ltL
  -- off `b` the finished walk agrees with the walk before finishing, and with `w` off `b`
  have off : ∀ k, b ≠ k → (finishBlock b wl).state[k]? = wl.state[k]? := fun k ne => by
    simp [finishedL, ne]
  have offW : ∀ k, b ≠ k → (enterBlock b w).state[k]? = w.state[k]? := fun k ne => by
    simp [entered, ne]
  have atB : (finishBlock b wl).state[b]? = some .finished := by rw [finishedL, if_pos rfl]
  have keepsSeen : ∀ s : Nat, wl.state[s]? ≠ some .unseen →
      (finishBlock b wl).state[s]? ≠ some .unseen := fun s h => by
    by_cases same : b = s
    · rw [← same, atB]
      simp
    · rw [off s same]
      exact h
  refine ⟨⟨?_, fun k => ?_, ?_⟩, ⟨fun k => ?_, fun k h => ?_, fun k h => ?_, fun k u nu => ?_⟩,
    atB, rfl⟩
  · simp [finishBlock, soundL.size]
  · show k ∈ b :: wl.finished ↔ _
    by_cases same : b = k
    · rw [← same, atB]
      simp
    · rw [off k same, List.mem_cons, soundL.mem_finished, or_iff_right (Ne.symm same)]
  · refine List.nodup_cons.mpr ⟨fun mem => ?_, soundL.nodup⟩
    rw [soundL.mem_finished, active] at mem
    cases mem
  · by_cases same : b = k
    · rw [← same, atB, unseen]
      simp
    · rw [off k same, loop.active_iff, offW k same]
  · have ne : b ≠ k := by rintro rfl; simp [unseen] at h
    rw [off k ne]
    exact loop.finished k (by rw [offW k ne]; exact h)
  · have ne : b ≠ k := by rintro rfl; simp [atB] at h
    rw [off k ne] at h
    simpa [offW k ne] using loop.unseen k h
  · by_cases same : b = k
    · rw [← same]
      exact ⟨.start (sound.size ▸ lt), atB, fun s hs => keepsSeen s (seen s hs)⟩
    · rw [off k same] at nu ⊢
      obtain ⟨reach, finished, closed⟩ := loop.entered k (by rw [offW k same]; exact u) nu
      exact ⟨reach, finished, fun s hs => keepsSeen s (closed s hs)⟩

theorem takeSuccessor_spec (hg : g.WellFormed) (visits : VisitsWithin g fuel)
    (edge : s ∈ g.successors b) (sound : Sound g w) (few : (unseenSet g w).card ≤ fuel) :
    Sound g (takeSuccessor g fuel b w s) ∧ Advances g b w (takeSuccessor g fuel b w s) ∧
      (takeSuccessor g fuel b w s).state[s]? ≠ some .unseen := by
  unfold takeSuccessor
  split
  · next unseen =>
    obtain ⟨sound', advances, finished, -⟩ := visits s w sound unseen few
    exact ⟨sound', advances.of_edge hg edge, by simp [finished]⟩
  · next active =>
    exact ⟨⟨sound.size, sound.mem_finished, sound.nodup⟩, .of_state_eq rfl, by simp [active]⟩
  · next notUnseen _ => exact ⟨sound, .refl g b w, notUnseen⟩

theorem foldl_takeSuccessor_spec (hg : g.WellFormed) (visits : VisitsWithin g fuel)
    (ss : List Nat) (edges : ∀ s ∈ ss, s ∈ g.successors b) (sound : Sound g w)
    (few : (unseenSet g w).card ≤ fuel) :
    Sound g (ss.foldl (takeSuccessor g fuel b) w) ∧
      Advances g b w (ss.foldl (takeSuccessor g fuel b) w) ∧
      ∀ s ∈ ss, (ss.foldl (takeSuccessor g fuel b) w).state[s]? ≠ some .unseen := by
  induction ss generalizing w with
  | nil => exact ⟨sound, .refl g b w, by simp⟩
  | cons s ss ih =>
    obtain ⟨sound₁, advances₁, seen₁⟩ :=
      takeSuccessor_spec hg visits (edges s List.mem_cons_self) sound few
    have few₁ := (Finset.card_le_card advances₁.unseenSet_subset).trans few
    obtain ⟨sound₂, advances₂, seen₂⟩ :=
      ih (fun s' h => edges s' (List.mem_cons_of_mem _ h)) sound₁ few₁
    refine ⟨sound₂, advances₁.trans advances₂, ?_⟩
    rw [List.forall_mem_cons]
    exact ⟨fun u => seen₁ (advances₂.unseen s u), seen₂⟩

theorem visitsWithin (hg : g.WellFormed) (fuel : Nat) : VisitsWithin g fuel := by
  induction fuel with
  | zero =>
    intro b w sound unseen few
    have mem : b ∈ unseenSet g w := by
      simp only [unseenSet, Finset.mem_filter, Finset.mem_range]
      exact ⟨sound.size ▸ lt_size_of_getElem? unseen, unseen⟩
    exact absurd (Finset.card_pos.mpr ⟨b, mem⟩) (by omega)
  | succ fuel ih =>
    intro b w sound unseen few
    rw [visit_succ]
    have fewer := card_unseenSet_enter sound unseen
    obtain ⟨soundL, loop, seen⟩ := foldl_takeSuccessor_spec hg ih (g.successors b)
      (fun _ h => h) (sound_enter sound unseen) (by omega)
    exact visited_finish sound unseen soundL loop seen

def fresh (g : Cfg) : Walk := ⟨Array.replicate g.size .unseen, [], []⟩

theorem fresh_state (k : Nat) : (fresh g).state[k]? = if k < g.size then some .unseen else none := by
  simp [fresh, Array.getElem?_replicate]

theorem sound_start (g : Cfg) : Sound g (fresh g) where
  size := Array.size_replicate
  mem_finished k := by
    show k ∈ [] ↔ _
    rw [fresh_state]
    split <;> simp
  nodup := List.nodup_nil

theorem card_unseenSet_fresh (g : Cfg) : (unseenSet g (fresh g)).card ≤ g.size := by
  simpa [unseenSet] using Finset.card_filter_le (Finset.range g.size) _

section Loop

/-! The explicit-stack loop runs the recursive visit: pushing a block and stepping until it is
popped again does what visiting it does. -/

theorem loop_nil (fuel : Nat) (w : Walk) : loop g fuel [] w = ([], w) := by
  cases fuel <;> rfl

theorem loop_add (a c : Nat) (stack : List (Nat × Nat)) (w : Walk) :
    loop g (a + c) stack w = loop g c (loop g a stack w).1 (loop g a stack w).2 := by
  induction a generalizing stack w with
  | zero => rw [Nat.zero_add]; rfl
  | succ a ih =>
    cases stack with
    | nil => rw [loop_nil, loop_nil, loop_nil]
    | cons top rest => rw [Nat.add_right_comm, loop, loop, ih]

theorem loop_eq_of_empty {a c : Nat} {stack : List (Nat × Nat)}
    (ha : (loop g a stack w).1 = []) (hc : (loop g c stack w).1 = []) :
    loop g a stack w = loop g c stack w := by
  have extend : ∀ {m n : Nat}, m ≤ n → (loop g m stack w).1 = [] →
      loop g n stack w = loop g m stack w := by
    intro m n le hm
    obtain ⟨k, rfl⟩ := Nat.exists_eq_add_of_le le
    rw [loop_add, hm, loop_nil, ← hm]
  rcases Nat.le_total a c with le | le
  · exact (extend le ha).symm
  · exact extend le hc

theorem step_unseen {i : Nat} {stack : List (Nat × Nat)} (get : (g.successors b)[i]? = some s)
    (unseen : w.state[s]? = some .unseen) :
    step g ((b, i) :: stack) w = ((s, 0) :: (b, i + 1) :: stack, enterBlock s w) := by
  simp [step, get, unseen, enterBlock]

theorem step_seen (fuel : Nat) {i : Nat} {stack : List (Nat × Nat)} (get : (g.successors b)[i]? = some s)
    (seen : w.state[s]? ≠ some .unseen) :
    step g ((b, i) :: stack) w = ((b, i + 1) :: stack, takeSuccessor g fuel b w s) := by
  unfold takeSuccessor
  simp only [step, get]
  split <;> simp_all

theorem step_finish {i : Nat} {stack : List (Nat × Nat)} (done : (g.successors b)[i]? = none) :
    step g ((b, i) :: stack) w = (stack, finishBlock b w) := by
  simp [step, done, finishBlock]

/-- From an unseen block of a sound walk with at most `fuel` unseen blocks, the loop with the
block pushed on a stack returns to the stack having done what the visit does. -/
def LoopsWithin (g : Cfg) (fuel : Nat) : Prop :=
  ∀ b w stack, Sound g w → w.state[b]? = some .unseen → (unseenSet g w).card ≤ fuel →
    ∃ c, loop g c ((b, 0) :: stack) (enterBlock b w) = (stack, visit g fuel b w)

theorem loop_successors (hg : g.WellFormed) (visits : VisitsWithin g fuel)
    (loops : LoopsWithin g fuel) (b : Nat) (stack : List (Nat × Nat)) :
    ∀ (ss : List Nat) (i : Nat) (w : Walk), (g.successors b).drop i = ss → Sound g w →
      (unseenSet g w).card ≤ fuel →
      ∃ c, loop g c ((b, i) :: stack) w =
        ((b, i + ss.length) :: stack, ss.foldl (takeSuccessor g fuel b) w)
  | [], i, w, _, _, _ => ⟨0, rfl⟩
  | s :: ss, i, w, rest, sound, few => by
    have get : (g.successors b)[i]? = some s := by rw [← List.head?_drop, rest]; rfl
    have tail : (g.successors b).drop (i + 1) = ss := by rw [← List.tail_drop, rest]; rfl
    have edge : s ∈ g.successors b := List.mem_of_getElem? get
    obtain ⟨sound₁, advances₁, -⟩ := takeSuccessor_spec hg visits edge sound few
    have few₁ := (Finset.card_le_card advances₁.unseenSet_subset).trans few
    obtain ⟨c₂, rest₂⟩ := loop_successors hg visits loops b stack ss (i + 1) _ tail sound₁ few₁
    -- one step takes `s`; when it is unseen, the loop then runs its visit
    have first : ∃ c₁, loop g c₁ ((b, i) :: stack) w =
        ((b, i + 1) :: stack, takeSuccessor g fuel b w s) := by
      by_cases unseen : w.state[s]? = some .unseen
      · obtain ⟨c, run⟩ := loops s w ((b, i + 1) :: stack) sound unseen few
        refine ⟨1 + c, ?_⟩
        rw [loop_add, loop, step_unseen get unseen, loop, run, takeSuccessor_of_unseen unseen]
      · exact ⟨1, by rw [loop, step_seen fuel get unseen, loop]⟩
    obtain ⟨c₁, run₁⟩ := first
    refine ⟨c₁ + c₂, ?_⟩
    rw [loop_add, run₁, rest₂, List.foldl_cons, List.length_cons, Nat.add_assoc, Nat.add_comm 1]

theorem loopsWithin (hg : g.WellFormed) (fuel : Nat) : LoopsWithin g fuel := by
  induction fuel with
  | zero =>
    intro b w stack sound unseen few
    have := card_unseenSet_enter sound unseen
    omega
  | succ fuel ih =>
    intro b w stack sound unseen few
    have fewer := card_unseenSet_enter sound unseen
    obtain ⟨c, run⟩ := loop_successors hg (visitsWithin hg fuel) ih b stack (g.successors b) 0
      (enterBlock b w) (List.drop_zero) (sound_enter sound unseen) (by omega)
    refine ⟨c + 1, ?_⟩
    -- with no successor left, the last step finishes `b` and pops it
    rw [loop_add, run, visit_succ, Nat.zero_add, loop,
      step_finish (List.getElem?_eq_none (Nat.le_refl _)), loop]

/-- The steps left: one for each successor still to take and each pop of a block on the stack,
and as many for each block not yet entered. -/
def loopWork (g : Cfg) (stack : List (Nat × Nat)) (w : Walk) : Nat :=
  (stack.map fun f => 1 + ((g.successors f.1).length - f.2)).sum +
    ∑ i ∈ unseenSet g w, (1 + (g.successors i).length)

theorem unseenSet_enter (unseen : w.state[b]? = some .unseen) :
    unseenSet g (enterBlock b w) = (unseenSet g w).erase b := by
  have lt := lt_size_of_getElem? unseen
  ext k
  by_cases same : b = k
  · subst same
    simp [unseenSet, enterBlock_state lt]
  · simp [unseenSet, enterBlock_state lt, same, Ne.symm same]

theorem unseenSet_finish_subset (b : Nat) (w : Walk) :
    unseenSet g (finishBlock b w) ⊆ unseenSet g w := by
  intro k hk
  simp only [unseenSet, Finset.mem_filter, finishBlock, Array.getElem?_setIfInBounds] at hk ⊢
  refine ⟨hk.1, ?_⟩
  split at hk
  · split at hk <;> simp at hk
  · exact hk.2

theorem size_step (stack : List (Nat × Nat)) (w : Walk) : (step g stack w).2.state.size = w.state.size := by
  unfold step
  split
  · rfl
  · split
    · split <;> simp
    · simp

theorem loopWork_step (size : w.state.size = g.size) (top : Nat × Nat) (rest : List (Nat × Nat)) :
    loopWork g (step g (top :: rest) w).1 (step g (top :: rest) w).2 + 1 ≤
      loopWork g (top :: rest) w := by
  obtain ⟨b, i⟩ := top
  cases get : (g.successors b)[i]? with
  | none =>
    rw [step_finish get]
    have fewer := Finset.sum_le_sum_of_subset (f := fun i => 1 + (g.successors i).length)
      (unseenSet_finish_subset (g := g) b w)
    simp only [loopWork, List.map_cons, List.sum_cons] at fewer ⊢
    omega
  | some s =>
    have lt : i < (g.successors b).length := (List.getElem?_eq_some_iff.mp get).1
    by_cases unseen : w.state[s]? = some .unseen
    · -- the block pushed moves its steps from the unseen blocks to the stack
      rw [step_unseen get unseen]
      have mem : s ∈ unseenSet g w := by
        simp only [unseenSet, Finset.mem_filter, Finset.mem_range]
        exact ⟨size ▸ lt_size_of_getElem? unseen, unseen⟩
      have moved := Finset.sum_erase_add (unseenSet g w) (fun i => 1 + (g.successors i).length) mem
      simp only [loopWork, List.map_cons, List.sum_cons, unseenSet_enter unseen] at moved ⊢
      omega
    · rw [step_seen 0 get unseen]
      have same : unseenSet g (takeSuccessor g 0 b w s) = unseenSet g w := by
        simp only [unseenSet, state_takeSuccessor_of_seen unseen]
      simp only [loopWork, List.map_cons, List.sum_cons, same]
      omega

theorem loop_empties : ∀ (fuel : Nat) (stack : List (Nat × Nat)) (w : Walk),
    w.state.size = g.size → loopWork g stack w ≤ fuel → (loop g fuel stack w).1 = []
  | 0, [], _, _, _ => rfl
  | 0, top :: rest, w, _, enough => by
    simp only [loopWork, List.map_cons, List.sum_cons] at enough
    omega
  | _ + 1, [], _, _, _ => rfl
  | fuel + 1, top :: rest, w, size, enough => by
    have lower := loopWork_step size top rest
    rw [loop]
    exact loop_empties fuel _ _ (by rw [size_step, size]) (by omega)

end Loop

end Walk

namespace Cfg

open Walk

variable {g : Cfg}

theorem fresh_entry (nonempty : 0 < g.size) : (fresh g).state[0]? = some .unseen := by
  rw [fresh_state, if_pos nonempty]

theorem depthFirstRun_eq (nonempty : 0 < g.size) :
    g.depthFirstRun = loop g (g.size + g.edges.length) [(0, 0)] (enterBlock 0 (fresh g)) := by
  unfold depthFirstRun entry?
  rw [if_neg (by omega)]
  rfl

theorem unseenSet_fresh (g : Cfg) : unseenSet g (fresh g) = Finset.range g.size := by
  ext k
  simp +contextual [unseenSet, fresh_state]

theorem length_edges (g : Cfg) : g.edges.length = ∑ i ∈ Finset.range g.size, (g.successors i).length := by
  rw [edges, List.length_flatMap, Finset.sum_eq_multiset_sum, Finset.range_val, Multiset.range,
    Multiset.map_coe, Multiset.sum_coe]
  simp

theorem loopWork_start (nonempty : 0 < g.size) :
    loopWork g [(0, 0)] (enterBlock 0 (fresh g)) = g.size + g.edges.length := by
  have mem : 0 ∈ Finset.range g.size := Finset.mem_range.mpr nonempty
  have moved := Finset.sum_erase_add (Finset.range g.size) (fun i => 1 + (g.successors i).length) mem
  have total : ∑ i ∈ Finset.range g.size, (1 + (g.successors i).length) =
      g.size + ∑ i ∈ Finset.range g.size, (g.successors i).length := by
    rw [Finset.sum_add_distrib, ← Finset.card_eq_sum_ones, Finset.card_range]
  simp only [loopWork, unseenSet_enter (fresh_entry nonempty), unseenSet_fresh, List.map_cons,
    List.map_nil, List.sum_cons, List.sum_nil, length_edges, Nat.sub_zero] at moved ⊢
  omega

theorem depthFirstRun_of_empty (empty : g.size = 0) : g.depthFirstRun = ([], ⟨#[], [], []⟩) := by
  simp [depthFirstRun, entry?, empty]

theorem depthFirstRun_empties (g : Cfg) : g.depthFirstRun.1 = [] := by
  by_cases nonempty : 0 < g.size
  · rw [depthFirstRun_eq nonempty]
    exact loop_empties _ _ _ (by simp [enterBlock, fresh, size]) (loopWork_start nonempty).le
  · rw [depthFirstRun_of_empty (by omega)]

/-- The loop from the entry runs the recursive visit of the entry. -/
theorem depthFirst_eq (hg : g.WellFormed) (nonempty : 0 < g.size) :
    g.depthFirst = visit g g.size 0 (fresh g) := by
  obtain ⟨c, run⟩ := loopsWithin hg g.size 0 (fresh g) [] (sound_start g) (fresh_entry nonempty)
    (card_unseenSet_fresh g)
  have ends := depthFirstRun_empties g
  rw [depthFirstRun_eq nonempty] at ends
  rw [depthFirst, depthFirstRun_eq nonempty, loop_eq_of_empty ends (by rw [run]), run]

theorem visited_depthFirst (hg : g.WellFormed) (nonempty : 0 < g.size) :
    Visited g 0 (fresh g) g.depthFirst := by
  rw [depthFirst_eq hg nonempty]
  exact visitsWithin hg g.size 0 _ (sound_start g) (fresh_entry nonempty) (card_unseenSet_fresh g)

/-- The finished blocks of the walk are exactly the blocks reachable from the entry. -/
theorem finished_depthFirst_iff (hg : g.WellFormed) {k : Nat} :
    g.depthFirst.state[k]? = some .finished ↔ g.Reaches .forward 0 k := by
  by_cases nonempty : 0 < g.size
  · have visited := visited_depthFirst hg nonempty
    have initially : ∀ k, k < g.size → (fresh g).state[k]? = some .unseen := fun k lt => by
      rw [fresh_state, if_pos lt]
    have inRange : ∀ k, g.depthFirst.state[k]? ≠ none → k < g.size := by
      intro k h
      rw [← visited.sound.size]
      by_contra out
      exact h (Array.getElem?_eq_none_iff.mpr (by omega))
    constructor
    · intro finished
      have lt := inRange k (by simp [finished])
      exact (visited.advances.entered k (initially k lt) (by simp [finished])).1
    · intro reach
      induction reach with
      | start _ => exact visited.finished_self
      | @edge m n _ edge lt ih =>
        -- the successor was entered, and nothing is active when the walk is over
        have lt_m : m < g.size := inRange m (by simp [ih])
        have seen := (visited.advances.entered m (initially m lt_m) (by simp [ih])).2.2 n edge
        have notActive : g.depthFirst.state[n]? ≠ some .active := fun active => by
          simpa [fresh_state, lt] using (visited.advances.active_iff n).mp active
        exact finished_of_ne_unseen_of_ne_active (visited.sound.size ▸ lt) seen notActive
  · have empty : g.size = 0 := by omega
    simp only [depthFirst, depthFirstRun_of_empty empty, List.getElem?_toArray, List.getElem?_nil,
      reduceCtorEq, false_iff]
    exact not_reaches_of_empty empty

/-- Reverse postorder lists each block reachable from the entry once, and no other. -/
theorem mem_reversePostorder (hg : g.WellFormed) {k : Nat} :
    k ∈ g.reversePostorder ↔ g.Reaches .forward 0 k := by
  by_cases nonempty : 0 < g.size
  · rw [reversePostorder, (visited_depthFirst hg nonempty).sound.mem_finished,
      finished_depthFirst_iff hg]
  · have empty : g.size = 0 := by omega
    simp only [reversePostorder, depthFirst, depthFirstRun_of_empty empty, List.not_mem_nil, false_iff]
    exact not_reaches_of_empty empty

theorem nodup_reversePostorder (hg : g.WellFormed) : g.reversePostorder.Nodup := by
  by_cases nonempty : 0 < g.size
  · exact (visited_depthFirst hg nonempty).sound.nodup
  · simp [reversePostorder, depthFirst, depthFirstRun_of_empty (show g.size = 0 by omega)]

/-- In a nonempty graph, reverse postorder starts at the entry. -/
theorem reversePostorder_head (hg : g.WellFormed) (nonempty : 0 < g.size) :
    g.reversePostorder.head? = some 0 :=
  (visited_depthFirst hg nonempty).head

end Cfg

end BrilFlow
