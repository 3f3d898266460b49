import Mathlib
import BrilFlow.Proofs.Edges

/-! Naming blocks and completing them: naming fails on the first repeated label or taken made-up
name, and completing keeps the edges of the graph over distinct names. -/
namespace BrilFlow

section MapM

variable {ε α β : Type}

theorem mapM_congr_of_mem {f g : α → Except ε β} :
    ∀ {l : List α}, (∀ a ∈ l, f a = g a) → l.mapM f = l.mapM g
  | [], _ => rfl
  | a :: l, same => by
    rw [List.mapM_cons, List.mapM_cons, same a List.mem_cons_self,
      mapM_congr_of_mem fun x hx => same x (List.mem_cons_of_mem _ hx)]

end MapM

/-! ### Repeated labels -/

/-- `l` is the first label met a second time: it occurs among the labels before it, and these
hold no repeat. -/
def FirstRepeat (ls : List String) (l : String) : Prop :=
  ∃ pre post, ls = pre ++ l :: post ∧ l ∈ pre ∧ pre.Nodup

theorem firstRepeated_eq_some_iff {seen ls : List String} {l : String} (fresh : seen.Nodup) :
    firstRepeated seen ls = some l ↔
      ∃ pre post, ls = pre ++ l :: post ∧ l ∈ pre ++ seen ∧ (pre ++ seen).Nodup := by
  induction ls generalizing seen with
  | nil => simp [firstRepeated]
  | cons x rest ih =>
    by_cases again : x ∈ seen
    · simp only [firstRepeated, List.contains_iff_mem.mpr again, if_true, Option.some.injEq]
      constructor
      · rintro rfl
        exact ⟨[], rest, rfl, again, fresh⟩
      · rintro ⟨pre, post, split, -, nodup⟩
        cases pre with
        | nil => exact (List.cons.inj split).1
        | cons y pre =>
          obtain ⟨rfl, -⟩ := List.cons.inj split
          simp [again] at nodup
    · have unseen : seen.contains x = false := by simpa using again
      simp only [firstRepeated, unseen, Bool.false_eq_true, if_false]
      rw [ih (List.nodup_cons.mpr ⟨again, fresh⟩)]
      constructor
      · rintro ⟨pre, post, rfl, mem, nodup⟩
        exact ⟨x :: pre, post, rfl, List.perm_middle.mem_iff.mp mem,
          List.perm_middle.nodup_iff.mp nodup⟩
      · rintro ⟨pre, post, split, mem, nodup⟩
        cases pre with
        | nil =>
          obtain ⟨rfl, -⟩ := List.cons.inj split
          exact absurd mem again
        | cons y pre =>
          obtain ⟨rfl, rfl⟩ := List.cons.inj split
          exact ⟨pre, post, rfl, List.perm_middle.mem_iff.mpr mem,
            List.perm_middle.nodup_iff.mpr nodup⟩

theorem firstRepeated_eq_none_iff {seen ls : List String} (fresh : seen.Nodup) :
    firstRepeated seen ls = none ↔ (ls ++ seen).Nodup := by
  induction ls generalizing seen with
  | nil => simpa [firstRepeated] using fresh
  | cons x rest ih =>
    by_cases again : x ∈ seen
    · simp [firstRepeated, again]
    · have unseen : seen.contains x = false := by simpa using again
      simp only [firstRepeated, unseen, Bool.false_eq_true, if_false]
      rw [ih (List.nodup_cons.mpr ⟨again, fresh⟩)]
      exact List.perm_middle.nodup_iff

theorem firstRepeated_nil_eq_some_iff {ls : List String} {l : String} :
    firstRepeated [] ls = some l ↔ FirstRepeat ls l := by
  rw [firstRepeated_eq_some_iff List.nodup_nil]
  simp only [List.append_nil]
  rfl

theorem firstRepeated_nil_eq_none_iff {ls : List String} :
    firstRepeated [] ls = none ↔ ls.Nodup := by
  rw [firstRepeated_eq_none_iff List.nodup_nil, List.append_nil]

/-! ### Made-up names -/

theorem syntheticName_injective : Function.Injective syntheticName := fun _ _ same =>
  Nat.repr_inj.mp ((String.append_right_inj "b").mp same)

/-- Block `i` has no label, and its made-up name is the label of some block. -/
def NameTaken (bs : List Block) (i : Nat) : Prop :=
  ∃ b, bs[i]? = some b ∧ b.label = none ∧ syntheticName i ∈ bs.filterMap (·.label)

/-- Each block under its label, or under `b<i>` at index `i` when it has none. -/
def namedInOrder (bs : List Block) : List NamedBlock :=
  bs.mapIdx fun i b => { name := b.label.getD (syntheticName i), block := b }

/-- Naming one block of a list with labels `labels`: its label, or its made-up name unless some
block has that as label. -/
def nameAt (labels : List String) (p : Block × Nat) : Except BlockError NamedBlock :=
  if p.1.label = none ∧ syntheticName p.2 ∈ labels then
    .error (.namingConflict (syntheticName p.2))
  else .ok { name := p.1.label.getD (syntheticName p.2), block := p.1 }

theorem nameBlocks_of_repeat {bs : List Block} {l : String}
    (repeated : firstRepeated [] (bs.filterMap (·.label)) = some l) :
    nameBlocks bs = .error (.duplicateLabel l) := by
  unfold nameBlocks
  simp only [repeated]
  rfl

theorem nameBlocks_of_nodup {bs : List Block}
    (distinct : firstRepeated [] (bs.filterMap (·.label)) = none) :
    nameBlocks bs = bs.zipIdx.mapM (nameAt (bs.filterMap (·.label))) := by
  unfold nameBlocks
  simp only [distinct]
  congr 1
  funext p
  obtain ⟨b, i⟩ := p
  cases labelled : b.label with
  | some l => simp [nameAt, labelled, pure, Except.pure]
  | none => by_cases taken : syntheticName i ∈ bs.filterMap (·.label) <;>
      simp [nameAt, labelled, taken, pure, Except.pure, throw, throwThe, MonadExceptOf.throw]

section Conflicts

variable {bs : List Block} {labels : List String} {b : Block} {i : Nat}

theorem nameAt_ok_iff : (∃ nb, nameAt labels (b, i) = .ok nb) ↔
    ¬(b.label = none ∧ syntheticName i ∈ labels) := by
  by_cases taken : b.label = none ∧ syntheticName i ∈ labels <;> simp [nameAt, taken]

theorem nameAt_eq_error_iff {e : BlockError} : nameAt labels (b, i) = .error e ↔
    (b.label = none ∧ syntheticName i ∈ labels) ∧ e = .namingConflict (syntheticName i) := by
  by_cases taken : b.label = none ∧ syntheticName i ∈ labels <;> simp [nameAt, taken, eq_comm]

theorem nameAt_of_free (free : ¬(b.label = none ∧ syntheticName i ∈ labels)) :
    nameAt labels (b, i) = .ok { name := b.label.getD (syntheticName i), block := b } := by
  simp [nameAt, free]

theorem nameTaken_iff (lt : i < bs.length) :
    NameTaken bs i ↔ bs[i].label = none ∧ syntheticName i ∈ bs.filterMap (·.label) := by
  simp [NameTaken, List.getElem?_eq_getElem lt]

theorem NameTaken.lt_length (taken : NameTaken bs i) : i < bs.length := by
  obtain ⟨b, get, -⟩ := taken
  exact (List.getElem?_eq_some_iff.mp get).1

theorem zipIdx_eq_map_range (bs : List Block) :
    bs.zipIdx = (List.range bs.length).map fun i => (bs[i]?.getD default, i) := by
  apply List.ext_getElem (by simp)
  intro i h _
  simp [List.getElem?_eq_getElem (show i < bs.length by simpa using h)]

theorem nameBlocks_eq_duplicate_iff {l : String} : nameBlocks bs = .error (.duplicateLabel l) ↔
    firstRepeated [] (bs.filterMap (·.label)) = some l := by
  cases scan : firstRepeated [] (bs.filterMap (·.label)) with
  | some l' => simp [nameBlocks_of_repeat scan]
  | none =>
    simp only [reduceCtorEq, iff_false]
    rw [nameBlocks_of_nodup scan, mapM_eq_error_iff]
    rintro ⟨pre, ⟨b, i⟩, post, -, -, fails⟩
    simp [nameAt_eq_error_iff] at fails

theorem nameBlocks_eq_conflict_iff (distinct : (bs.filterMap (·.label)).Nodup) {n : String} :
    nameBlocks bs = .error (.namingConflict n) ↔
      ∃ i, (NameTaken bs i ∧ ∀ k < i, ¬NameTaken bs k) ∧ n = syntheticName i := by
  rw [nameBlocks_of_nodup (firstRepeated_nil_eq_none_iff.mpr distinct), zipIdx_eq_map_range,
    List.mapM_map, mapM_range_eq_error_iff]
  simp only [Function.comp_apply]
  have read : ∀ k (hk : k < bs.length), (bs[k]?.getD default, k) = (bs[k], k) := fun k hk => by
    rw [List.getElem?_eq_getElem hk, Option.getD_some]
  constructor
  · rintro ⟨i, lt, before, fails⟩
    rw [read i lt, nameAt_eq_error_iff, ← nameTaken_iff lt,
      BlockError.namingConflict.injEq] at fails
    refine ⟨i, ⟨fails.1, fun k hk taken => ?_⟩, fails.2⟩
    have free := before k hk
    rw [read k (by omega), nameAt_ok_iff, ← nameTaken_iff (by omega)] at free
    exact free taken
  · rintro ⟨i, ⟨taken, before⟩, rfl⟩
    have lt := taken.lt_length
    refine ⟨i, lt, fun k hk => ?_, ?_⟩
    · rw [read k (by omega), nameAt_ok_iff, ← nameTaken_iff (by omega)]
      exact before k hk
    · rw [read i lt, nameAt_eq_error_iff, ← nameTaken_iff lt]
      exact ⟨taken, rfl⟩

theorem nameBlocks_eq_ok (distinct : (bs.filterMap (·.label)).Nodup)
    (free : ∀ i, ¬NameTaken bs i) : nameBlocks bs = .ok (namedInOrder bs) := by
  rw [nameBlocks_of_nodup (firstRepeated_nil_eq_none_iff.mpr distinct), namedInOrder,
    List.mapIdx_eq_zipIdx_map, mapM_eq_ok_iff, List.forall₂_map_right_iff]
  refine List.forall₂_same.mpr fun p mem => ?_
  obtain ⟨b, i⟩ := p
  have get := List.mem_zipIdx_iff_getElem?.mp mem
  exact nameAt_of_free fun conflict => free i ⟨b, get, conflict⟩

theorem label_ne_of_lt (distinct : (bs.filterMap (·.label)).Nodup) {j : Nat} (lt : i < j)
    (hj : j < bs.length) {l : String} (labelled : bs[i].label = some l) :
    bs[j].label ≠ some l := by
  intro again
  have pair : List.Sublist [bs[i], bs[j]] bs := by
    have ordered : List.Pairwise (· < ·) [(⟨i, by omega⟩ : Fin bs.length), ⟨j, hj⟩] := by
      simpa using lt
    simpa using List.map_getElem_sublist ordered
  have := distinct.sublist (pair.filterMap (·.label))
  simp [labelled, again] at this

theorem nodup_names_namedInOrder (distinct : (bs.filterMap (·.label)).Nodup)
    (free : ∀ i, ¬NameTaken bs i) : ((namedInOrder bs).map (·.name)).Nodup := by
  rw [List.Nodup, List.pairwise_iff_getElem]
  intro i j hi hj lt same
  simp only [List.length_map, namedInOrder, List.length_mapIdx] at hi hj
  simp only [namedInOrder, List.getElem_map, List.getElem_mapIdx] at same
  have label_of {k : Nat} (hk : k < bs.length) {l : String} (h : bs[k].label = some l) :
      l ∈ bs.filterMap (·.label) := List.mem_filterMap.mpr ⟨bs[k], List.getElem_mem hk, h⟩
  cases li : bs[i].label with
  | none =>
    cases lj : bs[j].label with
    | none =>
      simp only [li, lj, Option.getD_none] at same
      exact absurd (syntheticName_injective same) (by omega)
    | some l =>
      simp only [li, lj, Option.getD_none, Option.getD_some] at same
      exact free i ((nameTaken_iff hi).mpr ⟨li, same ▸ label_of hj lj⟩)
  | some l =>
    cases lj : bs[j].label with
    | none =>
      simp only [li, lj, Option.getD_none, Option.getD_some] at same
      exact free j ((nameTaken_iff hj).mpr ⟨lj, same ▸ label_of hi li⟩)
    | some l' =>
      simp only [li, lj, Option.getD_some] at same
      exact label_ne_of_lt distinct lt hj li (same ▸ lj)

end Conflicts

/-- Naming blocks fails on a label exactly when one occurs twice, and then on the first label
met a second time; with distinct labels it fails on a made-up name `b<i>` exactly at the first
unlabelled block whose made-up name some block has as label; otherwise it names every block in
place, by its label or by `b<i>`, and no two names agree. -/
theorem nameBlocks_outcome (bs : List Block) :
    (∀ l, nameBlocks bs = .error (.duplicateLabel l) ↔
      FirstRepeat (bs.filterMap (·.label)) l) ∧
    ((∃ l, nameBlocks bs = .error (.duplicateLabel l)) ↔ ¬(bs.filterMap (·.label)).Nodup) ∧
    ((bs.filterMap (·.label)).Nodup → ∀ n, nameBlocks bs = .error (.namingConflict n) ↔
      ∃ i, (NameTaken bs i ∧ ∀ k < i, ¬NameTaken bs k) ∧ n = syntheticName i) ∧
    ((bs.filterMap (·.label)).Nodup → (∀ i, ¬NameTaken bs i) →
      nameBlocks bs = .ok (namedInOrder bs) ∧ ((namedInOrder bs).map (·.name)).Nodup) := by
  refine ⟨fun _ => nameBlocks_eq_duplicate_iff.trans firstRepeated_nil_eq_some_iff, ?_,
    fun distinct _ => nameBlocks_eq_conflict_iff distinct,
    fun distinct free =>
      ⟨nameBlocks_eq_ok distinct free, nodup_names_namedInOrder distinct free⟩⟩
  -- a repeat is reported exactly when the scan finds one
  simp only [nameBlocks_eq_duplicate_iff, ← firstRepeated_nil_eq_none_iff]
  cases firstRepeated [] (bs.filterMap (·.label)) <;> simp


/-- An unlabelled block followed by a block labelled with its made-up name `b0`. -/
def takenName : List Block :=
  [{ ops := [Operation.constant "x" (.int 1)] }, { label := some "b0", ops := [.ret] }]

theorem nameBlocks_outcome_takenName :
    (takenName.filterMap (·.label)).Nodup ∧
      nameBlocks takenName = .error (.namingConflict "b0") := by
  have distinct : (takenName.filterMap (·.label)).Nodup := by decide
  refine ⟨distinct,
    ((nameBlocks_outcome takenName).2.2.1 distinct "b0").mpr ⟨0, ⟨?_, by simp⟩, rfl⟩⟩
  exact ⟨_, rfl, rfl, by decide⟩

/-! ### Completing blocks with jumps and returns -/

namespace NamedBlock

/-- A block completed before the block after it: unchanged when it ends in `jmp`, `br` or `ret`,
else given a jump to the next block's name, or a return when no block follows. -/
def completeBefore (nb : NamedBlock) (next : Option NamedBlock) : NamedBlock :=
  if nb.block.control?.isSome then nb
  else { nb with block := { nb.block with
    ops := nb.block.ops ++ [(next.map fun n => Operation.jump n.name).getD .ret] } }

variable {nb : NamedBlock} {next : Option NamedBlock}

@[simp] theorem name_completeBefore : (nb.completeBefore next).name = nb.name := by
  unfold completeBefore
  split <;> rfl

theorem completeBefore_of_control (control : nb.block.control?.isSome) :
    nb.completeBefore next = nb := if_pos control

theorem completeBefore_of_not_control (open_ : ¬nb.block.control?.isSome) :
    nb.completeBefore next = { nb with block := { nb.block with
      ops := nb.block.ops ++ [(next.map fun n => Operation.jump n.name).getD .ret] } } :=
  if_neg open_

theorem isControl_completion :
    ((next.map fun n => Operation.jump n.name).getD .ret).isControl := by
  cases next <;> simp [Operation.isControl, controlOps, Operation.jump, Operation.ret]

theorem control?_completeBefore : (nb.completeBefore next).block.control?.isSome := by
  by_cases control : nb.block.control?.isSome
  · rwa [completeBefore_of_control control]
  · simp [completeBefore_of_not_control control, Block.control?, isControl_completion]

end NamedBlock

theorem addTerminators_eq_mapIdx (m : List NamedBlock) :
    addTerminators m = m.mapIdx fun i nb => nb.completeBefore m[i + 1]? := by
  unfold addTerminators
  fun_induction completeFrom m with
  | case1 => rfl
  | case2 nb control => simp [NamedBlock.completeBefore_of_control control]
  | case3 nb control => simp [NamedBlock.completeBefore_of_not_control control]
  | case4 nb next rest nb' ih =>
    rw [ih, List.mapIdx_cons]
    simp [nb', NamedBlock.completeBefore]

theorem names_addTerminators (m : List NamedBlock) :
    (addTerminators m).map (·.name) = m.map (·.name) := by
  apply List.ext_getElem? 
  intro i
  simp only [addTerminators_eq_mapIdx, List.getElem?_map, List.getElem?_mapIdx, Option.map_map]
  cases m[i]? <;> simp

theorem control?_addTerminators {m : List NamedBlock} :
    ∀ nb ∈ addTerminators m, nb.block.control?.isSome := by
  intro nb mem
  rw [addTerminators_eq_mapIdx, List.mem_mapIdx] at mem
  obtain ⟨i, -, rfl⟩ := mem
  exact NamedBlock.control?_completeBefore

theorem addTerminators_of_control {m : List NamedBlock}
    (control : ∀ nb ∈ m, nb.block.control?.isSome) : addTerminators m = m := by
  apply List.ext_getElem?
  intro i
  rw [addTerminators_eq_mapIdx, List.getElem?_mapIdx]
  cases get : m[i]? with
  | none => rfl
  | some nb =>
    exact congrArg some
      (NamedBlock.completeBefore_of_control (control nb (List.mem_of_getElem? get)))

section Edges

variable {a b : List NamedBlock}

theorem indexOfName_congr (names : a.map (·.name) = b.map (·.name)) (l : String) :
    indexOfName a.toArray l = indexOfName b.toArray l := by
  apply Option.ext
  intro j
  simp only [indexOfName_eq_some_iff, FirstNamed, ← List.getElem?_map, names]

theorem successorsOf_congr {a b : Array NamedBlock} (size : a.size = b.size)
    (index : ∀ l, indexOfName a l = indexOfName b l) (i : Nat) (nb : NamedBlock) :
    successorsOf a i nb = successorsOf b i nb := by
  simp only [successorsOf, size, index]

theorem indexOfName_of_nodup (keys : (a.map (·.name)).Nodup) {j : Nat} (hj : j < a.length) :
    indexOfName a.toArray a[j].name = some j := by
  refine indexOfName_eq_some_iff.mpr ⟨by simp [hj], fun k hk same => ?_⟩
  have hk' : k < (a.map (·.name)).length := by simpa using Nat.lt_trans hk hj
  have hj' : j < (a.map (·.name)).length := by simpa using hj
  have named : (a.map (·.name))[k] = (a.map (·.name))[j] := by
    simpa [List.getElem?_eq_getElem (Nat.lt_trans hk hj)] using same
  exact absurd (keys.getElem_inj_iff.mp named) (Nat.ne_of_lt hk)

/-- A graph is built from blocks only through how many there are and each one's successors. -/
theorem ofBlocks_edges_congr (len : a.length = b.length)
    (each : ∀ i < a.length, successorsOf a.toArray i (a.toArray[i]?.getD default) =
      successorsOf b.toArray i (b.toArray[i]?.getD default)) :
    (Cfg.ofBlocks a).map (fun g => (g.succs, g.preds)) =
      (Cfg.ofBlocks b).map (fun g => (g.succs, g.preds)) := by
  unfold Cfg.ofBlocks
  simp only [List.size_toArray]
  rw [mapM_congr_of_mem (l := List.range a.length) fun i hi => each i (List.mem_range.mp hi), len]
  cases (List.range b.length).mapM fun i =>
    successorsOf b.toArray i (b.toArray[i]?.getD default) <;> rfl

theorem successorsOf_addTerminators (keys : (a.map (·.name)).Nodup) {i : Nat} (hi : i < a.length) :
    successorsOf (addTerminators a).toArray i ((addTerminators a).toArray[i]?.getD default) =
      successorsOf a.toArray i (a.toArray[i]?.getD default) := by
  have len : (addTerminators a).length = a.length := by simp [addTerminators_eq_mapIdx]
  have names := names_addTerminators a
  have at_i : (addTerminators a).toArray[i]?.getD default = a[i].completeBefore a[i + 1]? := by
    simp [addTerminators_eq_mapIdx, hi]
  rw [at_i, List.getElem?_toArray, List.getElem?_eq_getElem hi, Option.getD_some]
  by_cases control : a[i].block.control?.isSome
  · rw [NamedBlock.completeBefore_of_control control]
    exact successorsOf_congr (by simp [len]) (indexOfName_congr names) i a[i]
  · have none : a[i].block.control? = none := by simpa using control
    rw [successorsOf_of_none none]
    by_cases last : i + 1 < a.length
    · -- the added jump names the next block, first found at its own index
      have jump : (a[i].completeBefore a[i + 1]?).block.control? = some (.jump a[i + 1].name) := by
        simp [NamedBlock.completeBefore_of_not_control control, List.getElem?_eq_getElem last,
          Block.control?, Operation.isControl, controlOps, Operation.jump]
      rw [if_pos last, successorsOf_eq_ok_of_jump jump (by simp [Operation.jump])]
      simp only [Operation.jump, List.forall₂_cons, List.forall₂_nil_right_iff, and_true]
      rw [indexOfName_congr names]
      exact indexOfName_of_nodup keys last
    · have ret : (a[i].completeBefore a[i + 1]?).block.control? = some .ret := by
        simp [NamedBlock.completeBefore_of_not_control control,
          List.getElem?_eq_none (by omega : a.length ≤ i + 1), Block.control?,
          Operation.isControl, controlOps, Operation.ret]
      rw [if_neg last]
      exact successorsOf_of_ret ret rfl

end Edges

/-- Completing blocks ends every block in `jmp`, `br` or `ret`: a block that ends in one is kept,
and any other gains one operation, a jump to the next block's name or, for the last block, a
return. Completing again changes nothing, and over distinct names the graph of the completed
blocks fails with the same fault, or has the same successors and predecessors. -/
theorem addTerminators_completes (m : List NamedBlock) :
    (∀ nb ∈ addTerminators m, nb.block.control?.isSome) ∧
    (addTerminators m).length = m.length ∧
    (∀ i (h : i < m.length), (addTerminators m)[i]? =
      some (if m[i].block.control?.isSome then m[i] else
        { m[i] with block := { m[i].block with
          ops := m[i].block.ops ++
            [(m[i + 1]?.map fun next => Operation.jump next.name).getD .ret] } })) ∧
    addTerminators (addTerminators m) = addTerminators m ∧
    ((m.map (·.name)).Nodup →
      (Cfg.ofBlocks m).map (fun g => (g.succs, g.preds)) =
        (Cfg.ofBlocks (addTerminators m)).map (fun g => (g.succs, g.preds))) := by
  refine ⟨control?_addTerminators, by simp [addTerminators_eq_mapIdx], fun i h => ?_,
    addTerminators_of_control control?_addTerminators, fun keys => ?_⟩
  · simp [addTerminators_eq_mapIdx, h, NamedBlock.completeBefore]
  · refine (ofBlocks_edges_congr (by simp [addTerminators_eq_mapIdx]) fun i hi => ?_).symm
    exact successorsOf_addTerminators keys (by simpa [addTerminators_eq_mapIdx] using hi)

/-- Three blocks with distinct names: `entry` falls through to `loop`, which branches back to
itself or on to `done`, which falls off the end. -/
def fallThrough : List NamedBlock :=
  [{ name := "entry", block := { ops := [Operation.constant "x" (.int 1)] } },
   { name := "loop",
     block := { label := some "loop", ops := [Operation.branch "x" "loop" "done"] } },
   { name := "done", block := { label := some "done", ops := [Operation.effectOp "print" ["x"]] } }]

theorem addTerminators_completes_fallThrough :
    (fallThrough.map (·.name)).Nodup ∧
      (Cfg.ofBlocks fallThrough).map (fun g => (g.succs, g.preds)) =
        (Cfg.ofBlocks (addTerminators fallThrough)).map (fun g => (g.succs, g.preds)) := by
  have keys : (fallThrough.map (·.name)).Nodup := by decide
  exact ⟨keys, (addTerminators_completes fallThrough).2.2.2.2 keys⟩

end BrilFlow
