import BrilFlow.Proofs.Reports

/-! Live variables and available expressions block by block: each block's transfer is its
operations taken one at a time, from last to first for liveness and in order for availability. -/
namespace BrilFlow

/-- One operation's effect on the variables live before it, given those live after it: its
write ends the liveness of its destination, and its reads make its arguments live. -/
def liveStep (o : Operation) (live : List String) : List String :=
  Sorted.union (Sorted.diff live o.dest.toList) o.args

section Live

variable {o : Operation} {ops : List Operation} {live S : List String} {a : String}

theorem mem_liveStep : a ∈ liveStep o live ↔ a ∈ o.args ∨ (a ∈ live ∧ o.dest ≠ some a) := by
  simp only [liveStep, Sorted.mem_union, Sorted.mem_diff, Option.mem_toList]
  tauto

theorem canon_liveStep (o : Operation) (h : Sorted.Canon live) : Sorted.Canon (liveStep o live) :=
  Sorted.canon_union _ (Sorted.canon_diff _ h)

theorem Block.readsFirst_cons : ({ ops := o :: ops } : Block).ReadsFirst a ↔
    a ∈ o.args ∨ (o.dest ≠ some a ∧ ({ ops := ops } : Block).ReadsFirst a) := by
  simp only [Block.ReadsFirst, exists_split_cons, List.not_mem_nil, IsEmpty.forall_iff,
    implies_true, and_true, List.forall_mem_cons]
  constructor
  · rintro (reads | ⟨pre, x, post, rfl, reads, before⟩)
    · exact .inl reads
    · exact .inr ⟨before.1, pre, x, post, rfl, reads, before.2⟩
  · rintro (reads | ⟨first, pre, x, post, rfl, reads, before⟩)
    · exact .inl reads
    · exact .inr ⟨pre, x, post, rfl, reads, first, before⟩

theorem Block.writes_cons : ({ ops := o :: ops } : Block).Writes a ↔
    o.dest = some a ∨ ({ ops := ops } : Block).Writes a := by
  simp [Block.Writes]

theorem mem_foldr_liveStep (ops : List Operation) :
    a ∈ ops.foldr liveStep S ↔
      ({ ops := ops } : Block).ReadsFirst a ∨ (a ∈ S ∧ ¬({ ops := ops } : Block).Writes a) := by
  induction ops with
  | nil => simp [Block.ReadsFirst, Block.Writes]
  | cons o ops ih =>
    rw [List.foldr_cons, mem_liveStep, ih, Block.readsFirst_cons, Block.writes_cons]
    tauto

theorem canon_foldr_liveStep (ops : List Operation) (h : Sorted.Canon S) :
    Sorted.Canon (ops.foldr liveStep S) := by
  induction ops with
  | nil => exact h
  | cons o ops ih => exact canon_liveStep o ih

theorem mem_liveIn {b : Block} :
    a ∈ Sorted.union b.upwardExposed (Sorted.diff S b.defs) ↔
      b.ReadsFirst a ∨ (a ∈ S ∧ ¬b.Writes a) := by
  rw [Sorted.mem_union, Sorted.mem_diff, Block.mem_upwardExposed, Block.mem_defs]
  rfl

end Live

/-- The live-variables transfer of every block is its operations taken from last to first, each
removing its destination from the live set and then adding its arguments. -/
theorem live_transfer_backward (g : Cfg) (i : Nat) (S : List String) (canon : Sorted.Canon S) :
    (liveProblem g).transfer i S = (((g.block? i).map Block.ops).getD []).foldr liveStep S := by
  simp only [liveProblem]
  cases g.block? i with
  | none => rfl
  | some b =>
    refine Sorted.eq_of_mem_iff ?_ (canon_foldr_liveStep _ canon) fun a => ?_
    · exact Sorted.canon_union _ (Block.upwardExposed_spec b).1
    · exact mem_liveIn.trans (mem_foldr_liveStep b.ops).symm

theorem live_transfer_backward_deadSub :
    Sorted.Canon ["x"] ∧ (liveProblem deadSubGraph).transfer 1 ["x"] =
      [Operation.valueOp "sub" "x" ["a", "b"], .ret].foldr liveStep ["x"] :=
  ⟨by simp [Sorted.Canon], live_transfer_backward deadSubGraph 1 ["x"] (by simp [Sorted.Canon])⟩

def Cfg.Computes (g : Cfg) (e : Expr) : Prop :=
  ∃ nb ∈ g.blocks.toList, ∃ o ∈ nb.block.ops, Expr.ofOperation? o = some e

namespace Block

/-- The operation at index `i` computes `e`, and no operation at index `i` or later writes an
operand of `e`. -/
def Generates (b : Block) (e : Expr) : Prop :=
  ∃ i o, b.ops[i]? = some o ∧ Expr.ofOperation? o = some e ∧
    ∀ o' ∈ b.ops.drop i, ∀ v ∈ e.operands, o'.dest ≠ some v

def WritesOperand (b : Block) (e : Expr) : Prop := ∃ v ∈ e.operands, b.Writes v

end Block

/-- One operation's effect on the expressions available after it: it makes the expression it
computes available, and then its write ends every expression that reads its destination. -/
def availableStep (S : List Expr) (o : Operation) : List Expr :=
  (((Expr.ofOperation? o).map (Sorted.insert · S)).getD S).filter fun e =>
    o.dest.all fun v => !e.mentions v

def generateStep (acc : List Expr × List String) (o : Operation) : List Expr × List String :=
  let written := match o.dest with | some d => d :: acc.2 | none => acc.2
  match Expr.ofOperation? o with
  | some e =>
    if e.operands.any written.contains then (acc.1, written) else (Sorted.insert e acc.1, written)
  | none => (acc.1, written)

section Available

variable {o : Operation} {ops : List Operation} {S : List Expr} {e : Expr}

theorem Block.writesOperand_iff : ({ ops := ops } : Block).WritesOperand e ↔
    ¬∀ o ∈ ops, ∀ v ∈ e.operands, o.dest ≠ some v := by
  simp only [Block.WritesOperand, Block.Writes]
  grind

theorem Block.generates_cons : ({ ops := o :: ops } : Block).Generates e ↔
    (Expr.ofOperation? o = some e ∧ ∀ o' ∈ o :: ops, ∀ v ∈ e.operands, o'.dest ≠ some v) ∨
      ({ ops := ops } : Block).Generates e := by
  constructor
  · rintro ⟨i, x, get, computes, clear⟩
    cases i with
    | zero =>
      obtain rfl : o = x := by simpa using get
      exact .inl ⟨computes, clear⟩
    | succ i => exact .inr ⟨i, x, get, computes, clear⟩
  · rintro (⟨computes, clear⟩ | ⟨i, x, get, computes, clear⟩)
    · exact ⟨0, o, rfl, computes, clear⟩
    · exact ⟨i + 1, x, get, computes, clear⟩

theorem mem_availableStep : e ∈ availableStep S o ↔
    (Expr.ofOperation? o = some e ∨ e ∈ S) ∧ ∀ v ∈ e.operands, o.dest ≠ some v := by
  have computed : e ∈ ((Expr.ofOperation? o).map (Sorted.insert · S)).getD S ↔
      Expr.ofOperation? o = some e ∨ e ∈ S := by
    cases Expr.ofOperation? o <;> simp [eq_comm]
  have cleared : (o.dest.all fun v => !e.mentions v) = true ↔
      ∀ v ∈ e.operands, o.dest ≠ some v := by
    cases o.dest with
    | none => simp
    | some d =>
      simp only [Option.all_some, Bool.not_eq_true', Expr.mentions, List.contains_eq_mem,
        decide_eq_false_iff_not, ne_eq, Option.some.injEq]
      exact ⟨fun out v operand same => out (same ▸ operand),
        fun clear operand => clear d operand rfl⟩
  simp only [availableStep, List.mem_filter, computed, cleared]

theorem canon_availableStep (o : Operation) (h : Sorted.Canon S) :
    Sorted.Canon (availableStep S o) := by
  have computed : Sorted.Canon (((Expr.ofOperation? o).map (Sorted.insert · S)).getD S) := by
    cases Expr.ofOperation? o with
    | none => exact h
    | some e => exact Sorted.canon_insert e h
  exact computed.filter _

/-- Taken in order, operations leave available an expression one of them computes when neither
it nor a later one writes an operand, or one available before them when none of them writes an
operand. -/
theorem mem_foldl_availableStep (ops : List Operation) (S : List Expr) :
    e ∈ ops.foldl availableStep S ↔
      (e ∈ S ∧ ¬({ ops := ops } : Block).WritesOperand e) ∨
        ({ ops := ops } : Block).Generates e := by
  rw [Block.writesOperand_iff, not_not]
  induction ops generalizing S with
  | nil => simp [Block.Generates]
  | cons o ops ih =>
    rw [List.foldl_cons, ih, mem_availableStep, Block.generates_cons, List.forall_mem_cons]
    tauto

theorem generateStep_snd {acc : List Expr × List String} :
    (generateStep acc o).2 = o.dest.toList ++ acc.2 := by
  cases computes : Expr.ofOperation? o <;> cases dest : o.dest <;>
    simp only [generateStep, computes, dest] <;> (try split) <;> rfl

theorem mem_pick {found : List Expr} {written : List String} {e' : Expr} :
    e ∈ (if e'.operands.any written.contains then found else Sorted.insert e' found) ↔
      e ∈ found ∨ (e' = e ∧ ∀ v ∈ e.operands, v ∉ written) := by
  split
  · next reads =>
    simp only [List.any_eq_true, List.contains_iff_mem] at reads
    obtain ⟨v, operand, mem⟩ := reads
    constructor
    · exact .inl
    · rintro (mem' | ⟨rfl, clear⟩)
      · exact mem'
      · exact absurd mem (clear v operand)
  · next clear =>
    simp only [List.any_eq_true, List.contains_iff_mem, not_exists, not_and] at clear
    rw [Sorted.mem_insert]
    constructor
    · rintro (rfl | mem)
      · exact .inr ⟨rfl, clear⟩
      · exact .inl mem
    · rintro (mem | ⟨rfl, -⟩)
      · exact .inr mem
      · exact .inl rfl

theorem generateStep_fst {acc : List Expr × List String} :
    (generateStep acc o).1 = ((Expr.ofOperation? o).map fun e =>
      if e.operands.any (generateStep acc o).2.contains then acc.1
      else Sorted.insert e acc.1).getD acc.1 := by
  rw [generateStep_snd]
  cases computes : Expr.ofOperation? o with
  | none => simp [generateStep, computes]
  | some e =>
    cases dest : o.dest <;>
      simp only [generateStep, computes, dest, apply_ite Prod.fst, Option.toList,
        List.singleton_append, List.nil_append, Option.map_some, Option.getD_some] <;> rfl

theorem mem_generateStep_fst {acc : List Expr × List String} :
    e ∈ (generateStep acc o).1 ↔ e ∈ acc.1 ∨
      (Expr.ofOperation? o = some e ∧ ∀ v ∈ e.operands, v ∉ (generateStep acc o).2) := by
  rw [generateStep_fst]
  cases Expr.ofOperation? o with
  | none => simp
  | some e' => simp only [Option.map_some, Option.getD_some, mem_pick, Option.some.injEq]

theorem generatedExprs_eq (b : Block) :
    generatedExprs b = (b.ops.foldr (fun o acc => generateStep acc o) ([], [])).1 := by
  rw [generatedExprs, List.foldl_reverse]
  rfl

theorem foldr_generateStep (ops : List Operation) :
    (∀ v, v ∈ (ops.foldr (fun o acc => generateStep acc o) ([], [])).2 ↔
      ∃ o ∈ ops, o.dest = some v) ∧
    ∀ e, e ∈ (ops.foldr (fun o acc => generateStep acc o) ([], [])).1 ↔
      ({ ops := ops } : Block).Generates e := by
  induction ops with
  | nil => simp [Block.Generates]
  | cons o ops ih =>
    obtain ⟨written, found⟩ := ih
    have written' : ∀ v, v ∈ (generateStep (ops.foldr (fun o acc => generateStep acc o) ([], []))
        o).2 ↔ ∃ o' ∈ o :: ops, o'.dest = some v := fun v => by
      simp [generateStep_snd, written, eq_comm]
    refine ⟨written', fun e => ?_⟩
    rw [List.foldr_cons, mem_generateStep_fst, found, Block.generates_cons, or_comm]
    simp only [written', not_exists, not_and]
    constructor
    · rintro (⟨computes, clear⟩ | generated)
      · exact .inl ⟨computes, fun o' mem v operand dest => clear v operand o' mem dest⟩
      · exact .inr generated
    · rintro (⟨computes, clear⟩ | generated)
      · exact .inl ⟨computes, fun v operand o' mem dest => clear o' mem v operand dest⟩
      · exact .inr generated

theorem mem_generatedExprs {b : Block} : e ∈ generatedExprs b ↔ b.Generates e := by
  rw [generatedExprs_eq]
  exact (foldr_generateStep b.ops).2 e

theorem mem_killedExprs {all : List Expr} {b : Block} :
    e ∈ killedExprs all b ↔ e ∈ all ∧ b.WritesOperand e := by
  simp only [killedExprs]
  split
  · next none =>
    simp only [List.isEmpty_iff] at none
    simp [Block.WritesOperand, Block.Writes, ← Block.mem_defs, none]
  · simp only [List.mem_filter, List.any_eq_true, Expr.mentions, List.contains_iff_mem,
      Block.mem_defs, Block.WritesOperand, Block.Writes]
    grind

theorem mem_exprUniverse {g : Cfg} : e ∈ exprUniverse g ↔ g.Computes e := by
  simp [exprUniverse, Cfg.Computes]

theorem Cfg.computes_of_generates {g : Cfg} {k : Nat} {nb : NamedBlock}
    (at_k : g.blocks[k]? = some nb) (generates : nb.block.Generates e) : g.Computes e := by
  obtain ⟨i, o, get, computes, -⟩ := generates
  exact ⟨nb, Array.mem_toList_iff.mpr (Array.mem_of_getElem? at_k), o,
    List.mem_of_getElem? get, computes⟩

end Available

/-- What available expressions has at block `k` of a graph, the block `b`: it generates the
expressions an operation computes whose operands neither that operation nor a later one writes,
kills the function's expressions that read a variable the block writes, and on a set of the
function's expressions its transfer stays within the function's expressions and is the block's
operations applied one after the other. -/
structure AvailableBlock (g : Cfg) (k : Nat) (b : Block) : Prop where
  mem_gen : ∀ e, e ∈ (availableGen g)[k]?.getD [] ↔ b.Generates e
  mem_kill : ∀ e, e ∈ (availableKill g)[k]?.getD [] ↔ g.Computes e ∧ b.WritesOperand e
  transfer_within : ∀ S, (∀ e ∈ S, g.Computes e) →
    ∀ e ∈ (availableProblem g).transfer k S, g.Computes e
  transfer_eq : ∀ S, Sorted.Canon S → (∀ e ∈ S, g.Computes e) →
    (availableProblem g).transfer k S = b.ops.foldl availableStep S

theorem available_gen_kill_sequential (g : Cfg) (k : Nat) (nb : NamedBlock)
    (at_k : g.blocks[k]? = some nb) : AvailableBlock g k nb.block := by
  have gen : ∀ e, e ∈ (availableGen g)[k]?.getD [] ↔ nb.block.Generates e := fun e => by
    simp [availableGen, at_k, mem_generatedExprs]
  have kill : ∀ e, e ∈ (availableKill g)[k]?.getD [] ↔ g.Computes e ∧ nb.block.WritesOperand e :=
    fun e => by simp [availableKill, at_k, mem_killedExprs, mem_exprUniverse]
  -- on the function's expressions, the transfer keeps what the block leaves alone and adds
  -- what it generates
  have transfer : ∀ S, (∀ e ∈ S, g.Computes e) → ∀ e,
      e ∈ (availableProblem g).transfer k S ↔
        (e ∈ S ∧ ¬nb.block.WritesOperand e) ∨ nb.block.Generates e := by
    intro S within e
    simp only [availableProblem, Sorted.mem_union, Sorted.mem_diff, kill, gen]
    constructor
    · rintro (⟨mem, alive⟩ | generated)
      · exact .inl ⟨mem, fun writes => alive ⟨within e mem, writes⟩⟩
      · exact .inr generated
    · rintro (⟨mem, quiet⟩ | generated)
      · exact .inl ⟨mem, fun killed => quiet killed.2⟩
      · exact .inr generated
  refine ⟨gen, kill, fun S within e mem => ?_, fun S canon within => ?_⟩
  · rcases (transfer S within e).mp mem with ⟨kept, -⟩ | generated
    · exact within e kept
    · exact Cfg.computes_of_generates at_k generated
  · refine Sorted.eq_of_mem_iff ((availableGenKill g).canon_transfer k canon) ?_ fun e => ?_
    · exact foldl_induction Sorted.Canon _ _ canon fun acc h o _ => canon_availableStep o h
    · exact (transfer S within e).trans (mem_foldl_availableStep nb.block.ops S).symm

theorem available_gen_kill_sequential_deadSub :
    deadSubGraph.blocks[1]? = some (deadSubGraph.blocks[1]?.getD default) ∧
      AvailableBlock deadSubGraph 1 (deadSubGraph.blocks[1]?.getD default).block :=
  ⟨rfl, available_gen_kill_sequential deadSubGraph 1 _ rfl⟩

end BrilFlow
