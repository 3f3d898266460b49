import Mathlib.Algebra.BigOperators.Group.List.Basic
import Mathlib.Data.List.Chain
import BrilFlow.Cfg.Block

/-! Cutting an instruction stream into basic blocks: written back, the blocks give the stream, and
a terminator stands only last in its block. -/
namespace BrilFlow

namespace Block

/-- A block written back as instructions: its label, then its operations. -/
def instrs (b : Block) : List Instr := b.label.toList.map .label ++ b.ops.map .op

@[simp] theorem instrs_push (b : Block) (o : Operation) :
    { b with ops := b.ops ++ [o] }.instrs = b.instrs ++ [.op o] := by
  simp [instrs]

theorem instrs_getD (ob : Option Block) : (ob.getD {}).instrs = (ob.map instrs).getD [] := by
  cases ob <;> rfl

theorem instrs_ne_nil {b : Block} (nonempty : b.label = none → b.ops ≠ []) :
    b.instrs ≠ [] := by
  cases hl : b.label with
  | none => simpa [instrs, hl] using nonempty hl
  | some l => simp [instrs, hl]

theorem terminator?_push {b : Block} {o : Operation} (term : o.isTerminator = true) :
    { b with ops := b.ops ++ [o] }.terminator? = some o := by
  simp [terminator?, term]

/-- The block being filled while the stream is cut: none of its operations ends a block, and it
has an operation unless it has a label. -/
structure Open (b : Block) : Prop where
  no_terminator : ∀ o ∈ b.ops, o.isTerminator = false
  nonempty : b.label = none → b.ops ≠ []

theorem Open.labelled (l : String) : Open { label := some l } :=
  ⟨by simp, by simp⟩

theorem Open.push {ob : Option Block} (h : ∀ b, ob = some b → b.Open) {o : Operation}
    (cont : o.isTerminator = false) : Open { ob.getD {} with ops := (ob.getD {}).ops ++ [o] } := by
  refine ⟨fun o' mem => ?_, fun _ => by simp⟩
  rcases List.mem_append.mp mem with mem | mem
  · cases ob with
    | none => simp at mem
    | some b => exact (h b rfl).no_terminator o' mem
  · rw [List.mem_singleton.mp mem]
    exact cont

end Block

/-- The shape of blocks cut from a stream: a block ends in a terminator only at its last
operation, a block without a label has an operation, and a block not ending in a terminator
is the last one or is followed by a labelled block. -/
structure BlocksSplit (bs : List Block) : Prop where
  terminator_last : ∀ b ∈ bs, ∀ o ∈ b.ops.dropLast, o.isTerminator = false
  unlabelled_nonempty : ∀ b ∈ bs, b.label = none → b.ops ≠ []
  falls_into_label : bs.IsChain fun b c => b.terminator? = none → c.label.isSome = true

namespace BlocksSplit

theorem nil : BlocksSplit [] := ⟨by simp, by simp, .nil⟩

theorem cons {b : Block} {bs : List Block} (h : BlocksSplit bs)
    (last : ∀ o ∈ b.ops.dropLast, o.isTerminator = false)
    (nonempty : b.label = none → b.ops ≠ [])
    (next : ∀ c ∈ bs.head?, b.terminator? = none → c.label.isSome = true) :
    BlocksSplit (b :: bs) where
  terminator_last c mem := by
    rcases List.mem_cons.mp mem with rfl | mem
    · exact last
    · exact h.terminator_last c mem
  unlabelled_nonempty c mem := by
    rcases List.mem_cons.mp mem with rfl | mem
    · exact nonempty
    · exact h.unlabelled_nonempty c mem
  falls_into_label := List.isChain_cons.mpr ⟨next, h.falls_into_label⟩

theorem cons_open {b : Block} {bs : List Block} (h : BlocksSplit bs) (hb : b.Open)
    (next : ∀ c ∈ bs.head?, c.label.isSome = true) : BlocksSplit (b :: bs) :=
  h.cons (fun o mem => hb.no_terminator o (List.dropLast_subset _ mem)) hb.nonempty
    fun c mem _ => next c mem

end BlocksSplit

theorem label_head?_partitionFrom {b c : Block} {rest : List Instr}
    (head : c ∈ (partitionFrom (some b) rest).head?) : c.label = b.label := by
  induction rest generalizing b with
  | nil => simp_all [partitionFrom]
  | cons i rest ih =>
    cases i with
    | label l => simp_all [partitionFrom]
    | op o =>
      by_cases term : o.isTerminator
      · simp only [partitionFrom, term, if_true, List.head?_cons, Option.mem_def,
          Option.some.injEq] at head
        rw [← head]
        rfl
      · exact ih (b := { b with ops := b.ops ++ [o] }) (by simpa [partitionFrom, term] using head)

theorem flatMap_partitionFrom (ob : Option Block) (rest : List Instr) :
    (partitionFrom ob rest).flatMap Block.instrs = (ob.map Block.instrs).getD [] ++ rest := by
  fun_induction partitionFrom ob rest with
  | case1 ob => cases ob <;> simp
  | case2 l rest ih => simp [ih, Block.instrs]
  | case3 b l rest ih => simp [ih, Block.instrs]
  | case4 ob o rest b b' term ih => simp [ih, b', b, Block.instrs_getD]
  | case5 ob o rest b b' term ih => simp [ih, b', b, Block.instrs_getD]

/-- Cutting from a block being filled gives split blocks. -/
theorem blocksSplit_partitionFrom (ob : Option Block) (rest : List Instr)
    (hob : ∀ b, ob = some b → b.Open) : BlocksSplit (partitionFrom ob rest) := by
  fun_induction partitionFrom ob rest with
  | case1 ob =>
    cases ob with
    | none => exact .nil
    | some b => exact BlocksSplit.nil.cons_open (hob b rfl) (by simp)
  | case2 l rest ih => exact ih fun _ h => Option.some.inj h ▸ Block.Open.labelled l
  | case3 b l rest ih =>
    -- a label closes the block being filled; the block it opens carries that label
    have split := ih fun _ h => Option.some.inj h ▸ Block.Open.labelled l
    exact split.cons_open (hob b rfl) fun c head => by simp [label_head?_partitionFrom head]
  | case4 ob o rest b b' term ih =>
    -- a terminator closes the block it joins
    have filled : ∀ o' ∈ (ob.getD {}).ops, o'.isTerminator = false := by
      cases ob with
      | none => simp
      | some b => exact (hob b rfl).no_terminator
    refine (ih fun _ h => by cases h).cons ?_ ?_ ?_
    · simpa [b', b] using filled
    · simp [b', b]
    · intro c _ none
      simp [b', b, Block.terminator?_push term] at none
  | case5 ob o rest b b' term ih =>
    exact ih fun _ h => Option.some.inj h ▸ Block.Open.push hob (by simpa using term)

theorem flatMap_partition (instrs : List Instr) :
    (partition instrs).flatMap Block.instrs = instrs :=
  flatMap_partitionFrom none instrs

theorem blocksSplit_partition (instrs : List Instr) : BlocksSplit (partition instrs) :=
  blocksSplit_partitionFrom none instrs (by simp)

theorem length_partition_le (instrs : List Instr) :
    (partition instrs).length ≤ instrs.length := by
  have each : ∀ n ∈ (partition instrs).map fun b => b.instrs.length, 1 ≤ n := by
    simp only [List.mem_map, forall_exists_index, and_imp, forall_apply_eq_imp_iff₂]
    intro b mem
    exact List.length_pos_iff.mpr
      (Block.instrs_ne_nil ((blocksSplit_partition instrs).unlabelled_nonempty b mem))
  calc (partition instrs).length = ((partition instrs).map fun b => b.instrs.length).length :=
        (List.length_map _).symm
    _ ≤ ((partition instrs).map fun b => b.instrs.length).sum :=
        List.length_le_sum_of_one_le _ each
    _ = ((partition instrs).flatMap Block.instrs).length := List.length_flatMap.symm
    _ = instrs.length := by rw [flatMap_partition]

/-- The blocks of a stream give it back, written one after the other as label and operations;
they are cut only at labels and after `jmp`, `br`, `ret` and `call`, with no empty unlabelled
block; they are no more than the instructions, and none exactly when the stream is empty. -/
theorem partition_cuts_stream (instrs : List Instr) :
    (partition instrs).flatMap Block.instrs = instrs ∧ BlocksSplit (partition instrs) ∧
      (partition instrs).length ≤ instrs.length ∧ (partition instrs = [] ↔ instrs = []) := by
  refine ⟨flatMap_partition instrs, blocksSplit_partition instrs, length_partition_le instrs,
    ⟨fun none => ?_, fun empty => by rw [empty]; rfl⟩⟩
  rw [← flatMap_partition instrs, none, List.flatMap_nil]

example : (partition [.label "a", .label "b", .op .ret]).map (·.ops.length) = [0, 1] := by
  decide

end BrilFlow
