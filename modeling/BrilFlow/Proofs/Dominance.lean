import BrilFlow.Proofs.ReachingLive

/-! Dominance along paths from the entry: `a` dominates `b` when every path from the entry to `b`
passes `a`. The dominators of a block are totally ordered, so it has at most one immediate one. -/
namespace BrilFlow

theorem exists_first_split {γ : Type} (P : γ → Prop) (l : List γ) :
    (∀ x ∈ l, ¬P x) ∨ ∃ l₁ x l₂, l = l₁ ++ x :: l₂ ∧ P x ∧ ∀ y ∈ l₁, ¬P y := by
  induction l with
  | nil => exact .inl (by simp)
  | cons x l ih =>
    by_cases first : P x
    · exact .inr ⟨[], x, l, rfl, first, by simp⟩
    · rcases ih with none | ⟨l₁, y, l₂, rfl, hy, before⟩
      · exact .inl (List.forall_mem_cons.mpr ⟨first, none⟩)
      · exact .inr ⟨x :: l₁, y, l₂, rfl, hy, List.forall_mem_cons.mpr ⟨first, before⟩⟩

namespace Cfg

variable {g : Cfg} {d : Direction} {s m n x : Nat} {ns : List Nat}

theorem Path.start_mem (path : g.Path d s ns n) : s ∈ ns ++ [n] := by
  induction path with
  | here _ => simp
  | step _ _ _ ih => exact List.mem_append_left _ ih

theorem Path.append {ns₂ : List Nat} (first : g.Path d s ns m) (second : g.Path d m ns₂ n) :
    g.Path d s (ns ++ ns₂) n := by
  induction second with
  | here _ => simpa using first
  | step _ edge lt ih =>
    rw [← List.append_assoc]
    exact .step ih edge lt

theorem Path.split (path : g.Path d s ns n) {V₁ V₂ : List Nat}
    (at_x : ns ++ [n] = V₁ ++ x :: V₂) :
    g.Path d s V₁ x ∧ ∃ ns₂, g.Path d x ns₂ n ∧ ns₂ ++ [n] = x :: V₂ := by
  induction path generalizing V₂ with
  | here lt =>
    cases V₁ with
    | nil =>
      obtain ⟨rfl, rfl⟩ : s = x ∧ [] = V₂ := by simpa using at_x
      exact ⟨.here lt, [], .here lt, rfl⟩
    | cons y V₁ => simp at at_x
  | @step ns m n path edge lt ih =>
    -- the split block is either the last one or lies on the path before it
    rcases List.eq_nil_or_concat V₂ with rfl | ⟨V₂, y, rfl⟩
    · obtain ⟨rfl, last⟩ := List.append_inj' at_x rfl
      obtain rfl : n = x := List.singleton_inj.mp last
      exact ⟨.step path edge lt, [], .here lt, rfl⟩
    · rw [List.concat_eq_append, ← List.cons_append, ← List.append_assoc] at at_x
      obtain ⟨before, last⟩ := List.append_inj' at_x rfl
      obtain rfl : n = y := List.singleton_inj.mp last
      obtain ⟨front, ns₂, suffix, shape⟩ := ih before
      exact ⟨front, ns₂ ++ [m], .step suffix edge lt, by rw [shape]; simp⟩

/-- Block `a` dominates block `b`: `b` is reachable from the entry, and `a` lies on every path
from the entry to `b`, `b` itself included. -/
def Dominates (g : Cfg) (a b : Nat) : Prop :=
  g.Reaches .forward 0 b ∧ ∀ ns, g.Path .forward 0 ns b → a ∈ ns ++ [b]

/-- Block `i` is the immediate dominator of block `b`: a dominator of `b` other than `b` that
every dominator of `b` other than `b` dominates. -/
def ImmediatelyDominates (g : Cfg) (i b : Nat) : Prop :=
  g.Dominates i b ∧ i ≠ b ∧ ∀ a, g.Dominates a b → a ≠ b → g.Dominates a i

variable {a b c : Nat}

theorem dominates_self (reach : g.Reaches .forward 0 b) : g.Dominates b b :=
  ⟨reach, fun _ _ => by simp⟩

theorem entry_dominates (reach : g.Reaches .forward 0 b) : g.Dominates 0 b :=
  ⟨reach, fun _ path => path.start_mem⟩

theorem dominates_entry_iff : g.Dominates a 0 ↔ a = 0 ∧ 0 < g.size := by
  constructor
  · rintro ⟨reach, every⟩
    have lt := reach.lt_size
    exact ⟨by simpa using every [] (.here lt), lt⟩
  · rintro ⟨rfl, lt⟩
    exact dominates_self (.start lt)

theorem Dominates.reaches_left (h : g.Dominates a b) : g.Reaches .forward 0 a := by
  obtain ⟨ns, path⟩ := h.1.exists_path
  obtain ⟨V₁, V₂, split⟩ := List.append_of_mem (h.2 ns path)
  exact (path.split split).1.reaches

theorem Dominates.trans (ab : g.Dominates a b) (bc : g.Dominates b c) : g.Dominates a c := by
  refine ⟨bc.1, fun ns path => ?_⟩
  obtain ⟨V₁, V₂, split⟩ := List.append_of_mem (bc.2 ns path)
  have onPrefix := ab.2 V₁ (path.split split).1
  rw [split]
  rcases List.mem_append.mp onPrefix with h | h
  · exact List.mem_append_left _ h
  · rw [List.mem_singleton.mp h]
    exact List.mem_append_right _ List.mem_cons_self

theorem Dominates.antisymm (ab : g.Dominates a b) (ba : g.Dominates b a) : a = b := by
  by_contra ne
  obtain ⟨ns, path⟩ := ab.1.exists_path
  -- the first of the two on a path to `b` is reached by a path that avoids the other
  rcases exists_first_split (fun y => y = a ∨ y = b) (ns ++ [b]) with
    none | ⟨V₁, x, V₂, split, hx, before⟩
  · exact none b (by simp) (.inr rfl)
  · have front := (path.split split).1
    rcases hx with rfl | rfl
    · rcases List.mem_append.mp (ba.2 V₁ front) with h | h
      · exact before b h (.inr rfl)
      · exact ne (List.mem_singleton.mp h).symm
    · rcases List.mem_append.mp (ab.2 V₁ front) with h | h
      · exact before a h (.inl rfl)
      · exact ne (List.mem_singleton.mp h)

theorem Dominates.of_predecessor (hg : g.WellFormed) (ab : g.Dominates a b) (ne : a ≠ b)
    (edge : m ∈ g.predecessors b) (reach : g.Reaches .forward 0 m) : g.Dominates a m := by
  refine ⟨reach, fun ns path => ?_⟩
  have extended := ab.2 (ns ++ [m]) (.step path (hg.mem_predecessors.mp edge) ab.1.lt_size)
  rcases List.mem_append.mp extended with h | h
  · exact h
  · exact absurd (List.mem_singleton.mp h) ne

/-- A dominator of `b` that some path from `x` to `b` avoids dominates `x`. -/
theorem Dominates.of_avoiding {ns₂ : List Nat} (ab : g.Dominates a b)
    (reach : g.Reaches .forward 0 x) (suffix : g.Path .forward x ns₂ b)
    (avoids : a ∉ ns₂ ++ [b]) : g.Dominates a x := by
  refine ⟨reach, fun ns path => ?_⟩
  have joined := ab.2 (ns ++ ns₂) (path.append suffix)
  rw [List.append_assoc] at joined
  rcases List.mem_append.mp joined with h | h
  · exact List.mem_append_left _ h
  · exact absurd h avoids

/-- Two dominators of one block are ordered by dominance. -/
theorem Dominates.total (ab : g.Dominates a b) (cb : g.Dominates c b) :
    g.Dominates a c ∨ g.Dominates c a := by
  obtain ⟨ns, path⟩ := ab.1.exists_path
  -- past the last of the two on a path to `b`, the path avoids the other one
  rcases exists_last_split (fun y => y = a ∨ y = c) (ns ++ [b]) with
    none | ⟨V₁, x, V₂, split, hx, after⟩
  · exact absurd (.inl rfl) (none a (ab.2 ns path))
  · obtain ⟨front, ns₂, suffix, shape⟩ := path.split split
    have reach := front.reaches
    rcases hx with rfl | rfl
    · by_cases same : c = x
      · subst same
        exact .inl (dominates_self reach)
      · refine .inr (cb.of_avoiding reach suffix ?_)
        rw [shape, List.mem_cons]
        rintro (h | h)
        · exact same h
        · exact after c h (.inr rfl)
    · by_cases same : a = x
      · subst same
        exact .inl (dominates_self reach)
      · refine .inl (ab.of_avoiding reach suffix ?_)
        rw [shape, List.mem_cons]
        rintro (h | h)
        · exact same h
        · exact after a h (.inl rfl)

/-- A block has at most one immediate dominator. -/
theorem ImmediatelyDominates.unique {i j : Nat} (hi : g.ImmediatelyDominates i b)
    (hj : g.ImmediatelyDominates j b) : i = j :=
  (hj.2.2 i hi.1 hi.2.1).antisymm (hi.2.2 j hj.1 hj.2.1)

end Cfg

end BrilFlow
