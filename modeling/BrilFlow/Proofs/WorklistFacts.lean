import Mathlib.Data.List.Perm.Basic
import BrilFlow.Analysis.Worklist

/-! Worklists as multisets of waiting blocks. Whatever the order, taking a block removes one
of its entries and leaves the others; adding a block makes it wait, and with deduplication a
block waits at most once, marked waiting exactly while it is queued. -/
namespace BrilFlow.Worklist

/-- A worklist over `size` blocks: entries in range, and with deduplication each block queued
at most once and marked waiting exactly while queued. -/
structure Valid (w : Worklist) (size : Nat) : Prop where
  waiting_size : w.waiting.size = size
  queue_lt : ∀ n ∈ w.queue, n < size
  marks : w.config.dedup = true → ∀ n, w.waiting[n]?.getD false = true ↔ n ∈ w.queue
  nodup : w.config.dedup = true → w.queue.Nodup

theorem valid_empty (size : Nat) (config : EngineConfig) : (empty size config).Valid size where
  waiting_size := by simp [empty]
  queue_lt := by simp [empty]
  marks := fun _ n => by
    simp only [empty, Array.getElem?_replicate, List.not_mem_nil, iff_false]
    split <;> simp
  nodup := fun _ => List.nodup_nil

@[simp] theorem push_config (w : Worklist) (n : Nat) : (w.push n).config = w.config := by
  unfold push; split <;> rfl

theorem push_queue (w : Worklist) (n : Nat) :
    (w.push n).queue = if w.config.dedup && (w.waiting[n]?.getD false) then w.queue
      else w.queue ++ [n] := by
  unfold push; split <;> rfl

theorem length_push_le (w : Worklist) (n : Nat) : (w.push n).queue.length ≤ w.queue.length + 1 := by
  rw [push_queue]; split <;> simp

section Push

variable {w : Worklist} {size : Nat} (valid : w.Valid size)
include valid

theorem mem_push {n m : Nat} : m ∈ (w.push n).queue ↔ m = n ∨ m ∈ w.queue := by
  rw [push_queue]
  split
  · next skip =>
    simp only [Bool.and_eq_true] at skip
    have := (valid.marks skip.1 n).mp skip.2
    constructor
    · exact .inr
    · rintro (rfl | h) <;> assumption
  · simp [or_comm]

theorem push_valid {n : Nat} (lt : n < size) : (w.push n).Valid size := by
  unfold push
  split
  · exact valid
  · next fresh =>
    refine ⟨by simp [valid.waiting_size], fun m hm => ?_, fun dedup m => ?_, fun dedup => ?_⟩
    · rcases List.mem_append.mp hm with h | h
      · exact valid.queue_lt m h
      · simp only [List.mem_singleton] at h; exact h ▸ lt
    · replace dedup : w.config.dedup = true := dedup
      simp only [dedup, Bool.true_and, Bool.not_eq_true] at fresh
      simp only [Array.getElem?_setIfInBounds, valid.waiting_size, lt, if_true, List.mem_append,
        List.mem_singleton]
      by_cases same : n = m
      · subst same; simp
      · simp only [same, if_false, valid.marks dedup m, Ne.symm same, or_false]
    · replace dedup : w.config.dedup = true := dedup
      simp only [dedup, Bool.true_and, Bool.not_eq_true] at fresh
      have notIn : n ∉ w.queue := fun h => by simp [(valid.marks dedup n).mpr h] at fresh
      refine List.nodup_append.mpr ⟨valid.nodup dedup, by simp, fun a ha b hb => ?_⟩
      rw [List.mem_singleton.mp hb]
      exact fun same => notIn (same ▸ ha)

end Push

theorem pushWhere_valid {p : Nat → Bool} {size : Nat} (inRange : ∀ n, p n = true → n < size) :
    ∀ (js : List Nat) {w : Worklist}, w.Valid size →
      (js.foldl (fun w n => if p n then w.push n else w) w).Valid size ∧
      (js.foldl (fun w n => if p n then w.push n else w) w).config = w.config ∧
      (∀ m, m ∈ (js.foldl (fun w n => if p n then w.push n else w) w).queue ↔
        m ∈ w.queue ∨ (m ∈ js ∧ p m = true)) ∧
      (js.foldl (fun w n => if p n then w.push n else w) w).queue.length ≤
        w.queue.length + js.length
  | [], w, valid => ⟨valid, rfl, by simp, by simp⟩
  | j :: js, w, valid => by
    simp only [List.foldl_cons]
    split
    · next pj =>
      obtain ⟨valid', config, mem, len⟩ :=
        pushWhere_valid inRange js (push_valid valid (inRange j pj))
      refine ⟨valid', by rw [config, push_config], fun m => ?_, ?_⟩
      · rw [mem, mem_push valid]
        simp only [List.mem_cons]
        constructor
        · rintro ((rfl | h) | h)
          · exact .inr ⟨.inl rfl, pj⟩
          · exact .inl h
          · exact .inr ⟨.inr h.1, h.2⟩
        · rintro (h | ⟨rfl | h, pm⟩)
          · exact .inl (.inr h)
          · exact .inl (.inl rfl)
          · exact .inr ⟨h, pm⟩
      · have := length_push_le w j
        simp only [List.length_cons]; omega
    · next pj =>
      obtain ⟨valid', config, mem, len⟩ := pushWhere_valid inRange js valid
      refine ⟨valid', config, fun m => ?_, by simp only [List.length_cons]; omega⟩
      rw [mem]
      simp only [List.mem_cons]
      constructor
      · rintro (h | ⟨h, pm⟩)
        · exact .inl h
        · exact .inr ⟨.inr h, pm⟩
      · rintro (h | ⟨rfl | h, pm⟩)
        · exact .inl h
        · simp [pm] at pj
        · exact .inr ⟨h, pm⟩

theorem pushWhere_queue {p : Nat → Bool} {size : Nat} (inRange : ∀ n, p n = true → n < size) :
    ∀ (js : List Nat) {w : Worklist}, w.Valid size → js.Nodup → (∀ n ∈ js, n ∉ w.queue) →
      (js.foldl (fun w n => if p n then w.push n else w) w).queue = w.queue ++ js.filter p
  | [], w, _, _, _ => by simp
  | j :: js, w, valid, nodup, fresh => by
    obtain ⟨jNew, nodup⟩ := List.nodup_cons.mp nodup
    simp only [List.foldl_cons, List.filter_cons]
    split
    · next pj =>
      have notWaiting : (w.config.dedup && w.waiting[j]?.getD false) = false := by
        cases dedup : w.config.dedup
        · rfl
        · cases marked : w.waiting[j]?.getD false
          · rfl
          · exact absurd ((valid.marks dedup j).mp marked) (fresh j (by simp))
      have pushed : (w.push j).queue = w.queue ++ [j] := by rw [push_queue, notWaiting]; rfl
      rw [pushWhere_queue inRange js (push_valid valid (inRange j pj)) nodup fun n hn => ?_,
        pushed]
      · simp
      · rw [mem_push valid]
        rintro (rfl | h)
        · exact jNew hn
        · exact fresh n (List.mem_cons_of_mem j hn) h
    · exact pushWhere_queue inRange js valid nodup fun n hn => fresh n (List.mem_cons_of_mem j hn)

theorem set_perm_cons {l : List Nat} {i : Nat} (hi : i < l.length) (a : Nat) :
    (l[i] :: l.set i a).Perm (a :: l) := by
  have whole : l = l.take i ++ l[i] :: l.drop (i + 1) := by
    rw [List.getElem_cons_drop, List.take_append_drop]
  rw [List.set_eq_take_append_cons_drop, if_pos hi]
  conv => rhs; rw [whole]
  exact (List.Perm.cons _ List.perm_middle).trans
    ((List.Perm.swap _ _ _).trans (List.Perm.cons _ List.perm_middle.symm))

/-- Removing by swapping in the last entry removes exactly the chosen entry. -/
theorem swapRemove_perm {q : List Nat} {i : Nat} (hi : i < q.length) :
    (q[i] :: swapRemove q i).Perm q := by
  obtain ⟨l, last, rfl⟩ : ∃ l last, q = l ++ [last] := by
    rcases List.eq_nil_or_concat q with rfl | ⟨l, last, rfl⟩
    · simp at hi
    · exact ⟨l, last, List.concat_eq_append ..⟩
  simp only [List.length_append, List.length_singleton] at hi
  unfold swapRemove
  simp only [List.length_append, List.length_singleton, List.dropLast_concat,
    List.getLast?_concat]
  split
  · next atLast =>
    have : i = l.length := by omega
    subst this
    simpa using (List.perm_append_singleton last l).symm
  · next notLast =>
    have inL : i < l.length := by omega
    rw [List.getElem_append_left inL]
    exact (set_perm_cons inL last).trans (List.perm_append_singleton last l).symm

theorem mod_length_lt (drawn : Nat) {q : List Nat} (ne : q ≠ []) : drawn % q.length < q.length :=
  Nat.mod_lt _ (List.length_pos_iff.mpr ne)

/-- The engine's draws never wrap around: each lies inside the queue it is drawn from. -/
theorem draw_mod_length (w : Worklist) (k : Nat) : w.draw k % w.queue.length = w.draw k := by
  cases queue : w.queue with
  | nil => simp
  | cons n rest =>
    rw [← queue]
    unfold draw
    split
    · next seed _ => exact Nat.mod_eq_of_lt (w.config.draws.pick_lt seed k _ (by simp [queue]))
    · exact Nat.zero_mod _

theorem pop?_eq_none_iff {w : Worklist} {drawn : Nat} : w.pop? drawn = none ↔ w.queue = [] := by
  unfold pop?
  cases order : w.config.order with
  | fifo => cases w.queue <;> simp
  | lifo =>
    cases queue : w.queue with
    | nil => simp
    | cons n rest => simp only; rw [List.getLast?_eq_some_getLast (by simp)]; simp
  | shuffled seed =>
    cases queue : w.queue with
    | nil => simp
    | cons n rest =>
      dsimp only
      rw [List.getElem?_eq_getElem (mod_length_lt drawn (List.cons_ne_nil n rest))]
      simp

/-- How taking `n` leaves `w'`, by the order: from the front, from the back, or from a position
inside the queue, whose place the last entry takes. -/
def Takes (w : Worklist) (n : Nat) (w' : Worklist) : Prop :=
  match w.config.order with
  | .fifo => w.queue = n :: w'.queue
  | .lifo => w.queue = w'.queue ++ [n]
  | .shuffled _ => ∃ i, w.queue[i]? = some n ∧ w'.queue = swapRemove w.queue i

theorem Takes.perm {w w' : Worklist} {n : Nat} (h : w.Takes n w') : (n :: w'.queue).Perm w.queue := by
  unfold Takes at h
  split at h
  · rw [h]
  · rw [h]; exact (List.perm_append_singleton _ _).symm
  · obtain ⟨i, at_i, rest⟩ := h
    obtain ⟨lt, rfl⟩ := List.getElem?_eq_some_iff.mp at_i
    rw [rest]
    exact swapRemove_perm lt

/-- Taking a block follows the order, marks the block no longer waiting and keeps the
configuration. -/
theorem pop?_takes {w w' : Worklist} {n drawn : Nat} (h : w.pop? drawn = some (n, w')) :
    w.Takes n w' ∧ w'.waiting = w.waiting.setIfInBounds n false ∧ w'.config = w.config := by
  unfold pop? at h
  unfold Takes
  cases order : w.config.order with
  | fifo =>
    cases queue : w.queue with
    | nil => rw [order, queue] at h; cases h
    | cons m rest =>
      rw [order, queue] at h
      simp only [Option.some.injEq, Prod.mk.injEq] at h
      obtain ⟨rfl, rfl⟩ := h
      exact ⟨rfl, rfl, rfl⟩
  | lifo =>
    cases queue : w.queue with
    | nil => rw [order, queue] at h; cases h
    | cons m rest =>
      rw [order, queue] at h
      dsimp only at h
      rw [List.getLast?_eq_some_getLast (by simp)] at h
      simp only [Option.some.injEq, Prod.mk.injEq] at h
      obtain ⟨rfl, rfl⟩ := h
      exact ⟨(List.dropLast_append_getLast (by simp)).symm, rfl, rfl⟩
  | shuffled seed =>
    cases queue : w.queue with
    | nil => rw [order, queue] at h; cases h
    | cons m rest =>
      rw [order, queue] at h
      have lt := mod_length_lt drawn (List.cons_ne_nil m rest)
      dsimp only at h
      rw [List.getElem?_eq_getElem lt] at h
      simp only [Option.some.injEq, Prod.mk.injEq] at h
      obtain ⟨rfl, rfl⟩ := h
      exact ⟨⟨_, List.getElem?_eq_getElem lt, rfl⟩, rfl, rfl⟩

theorem pop?_some {w w' : Worklist} {n drawn : Nat} (h : w.pop? drawn = some (n, w')) :
    (n :: w'.queue).Perm w.queue ∧ w'.waiting = w.waiting.setIfInBounds n false ∧
      w'.config = w.config := by
  obtain ⟨takes, waiting, config⟩ := pop?_takes h
  exact ⟨takes.perm, waiting, config⟩

theorem length_pop? {w w' : Worklist} {n drawn : Nat} (h : w.pop? drawn = some (n, w')) :
    w'.queue.length + 1 = w.queue.length := by
  simpa using (pop?_some h).1.length_eq

theorem pop?_valid {w w' : Worklist} {n size drawn : Nat} (valid : w.Valid size)
    (h : w.pop? drawn = some (n, w')) : w'.Valid size := by
  obtain ⟨perm, waiting, config⟩ := pop?_some h
  refine ⟨by simp [waiting, valid.waiting_size], fun m hm => valid.queue_lt m
    (perm.subset (List.mem_cons_of_mem n hm)), fun dedup m => ?_, fun dedup => ?_⟩
  · rw [config] at dedup
    have nodup := perm.nodup_iff.mpr (valid.nodup dedup)
    rw [waiting, Array.getElem?_setIfInBounds]
    by_cases same : n = m
    · subst same
      simp only [if_true]
      have := (List.nodup_cons.mp nodup).1
      split <;> simp [this]
    · simp only [same, if_false, valid.marks dedup m, ← perm.mem_iff, List.mem_cons,
        Ne.symm same, false_or]
  · rw [config] at dedup
    exact (List.nodup_cons.mp (perm.nodup_iff.mpr (valid.nodup dedup))).2

end BrilFlow.Worklist
