import BrilFlow.Proofs.Graph

/-! The edges of a graph built from named blocks: building fails at the first unknown label, and
otherwise successors follow the last operation and predecessors invert them. -/
namespace BrilFlow

section MapM

variable {ε α β : Type} {f : α → Except ε β}

theorem mapM_cons_eq_error {a : α} {l : List α} {e : ε} :
    (a :: l).mapM f = .error e ↔ f a = .error e ∨ ∃ b, f a = .ok b ∧ l.mapM f = .error e := by
  rw [List.mapM_cons]
  cases f a <;> cases l.mapM f <;> simp [bind, Except.bind, pure, Except.pure]

/-- A list is mapped with an error exactly when some element fails and every element before it
succeeds; the error is the one that element gives. -/
theorem mapM_eq_error_iff {e : ε} : ∀ {l : List α}, l.mapM f = .error e ↔
    ∃ pre a post, l = pre ++ a :: post ∧ (∀ x ∈ pre, ∃ b, f x = .ok b) ∧ f a = .error e
  | [] => by simp [pure, Except.pure]
  | a :: l => by
    rw [mapM_cons_eq_error, mapM_eq_error_iff]
    constructor
    · rintro (fails | ⟨b, ok, pre, x, post, rfl, before, fails⟩)
      · exact ⟨[], a, l, rfl, by simp, fails⟩
      · refine ⟨a :: pre, x, post, rfl, fun y hy => ?_, fails⟩
        rcases List.mem_cons.mp hy with rfl | hy
        · exact ⟨b, ok⟩
        · exact before y hy
    · rintro ⟨pre, x, post, split, before, fails⟩
      cases pre with
      | nil =>
        obtain ⟨rfl, rfl⟩ := List.cons.inj split
        exact .inl fails
      | cons y pre =>
        obtain ⟨rfl, rfl⟩ := List.cons.inj split
        obtain ⟨b, ok⟩ := before _ List.mem_cons_self
        exact .inr ⟨b, ok, pre, x, post, rfl, fun z hz => before z (List.mem_cons_of_mem _ hz),
          fails⟩

theorem mapM_eq_ok_iff {r : List β} : ∀ {l : List α},
    l.mapM f = .ok r ↔ List.Forall₂ (fun a b => f a = .ok b) l r
  | [] => by cases r <;> simp [pure, Except.pure]
  | a :: l => by
    constructor
    · exact Cfg.forall₂_of_mapM_ok
    · intro each
      cases each with
      | cons fa rest =>
        rw [List.mapM_cons, fa, mapM_eq_ok_iff.mpr rest]
        rfl

theorem mapM_range_eq_error_iff {f : Nat → Except ε β} {n : Nat} {e : ε} :
    (List.range n).mapM f = .error e ↔
      ∃ i < n, (∀ k < i, ∃ b, f k = .ok b) ∧ f i = .error e := by
  rw [mapM_eq_error_iff]
  constructor
  · rintro ⟨pre, i, post, split, ok, fails⟩
    rw [List.range_eq_range', List.range'_eq_append_iff] at split
    obtain ⟨k, -, rfl, rest⟩ := split
    obtain ⟨rfl, lt, -⟩ := List.range'_eq_cons_iff.mp rest.symm
    exact ⟨0 + k * 1, by omega, fun j hj => ok j (by simpa using hj), fails⟩
  · rintro ⟨i, lt, ok, fails⟩
    refine ⟨List.range i, i, List.range' (i + 1) (n - (i + 1)), ?_,
      fun k hk => ok k (List.mem_range.mp hk), fails⟩
    rw [List.range_eq_range', List.range_eq_range', List.range'_eq_append_iff]
    refine ⟨i, by omega, rfl, ?_⟩
    exact (List.range'_eq_cons_iff.mpr ⟨by simp, by omega, by congr 1⟩).symm

theorem mapM_eq_error_iff_of {P : α → Prop} {Q : α → Prop} {e : ε} {l : List α}
    (ok : ∀ a, (∃ b, f a = .ok b) ↔ P a) (err : ∀ a, f a = .error e ↔ Q a) :
    l.mapM f = .error e ↔ ∃ pre a post, l = pre ++ a :: post ∧ (∀ x ∈ pre, P x) ∧ Q a := by
  simp only [mapM_eq_error_iff, ok, err]

end MapM

/-- A block jumps to the labels `ls`: its last operation is `jmp` or `br` with those labels. -/
def NamedBlock.JumpsTo (nb : NamedBlock) (ls : List String) : Prop :=
  ∃ o, nb.block.ops.getLast? = some o ∧ (o.op = "jmp" ∨ o.op = "br") ∧ o.labels = ls

/-- Block `j` is the first of `blocks` named `l` (the only one, in a list of distinct names). -/
def FirstNamed (blocks : List NamedBlock) (l : String) (j : Nat) : Prop :=
  blocks[j]?.map (·.name) = some l ∧ ∀ k < j, blocks[k]?.map (·.name) ≠ some l

def Resolved (blocks : List NamedBlock) (nb : NamedBlock) : Prop :=
  ∀ ls, nb.JumpsTo ls → ∀ l ∈ ls, l ∈ blocks.map (·.name)

/-- The fault building reports: the first block, in block order, that jumps to a label naming no
block, with the first such label among its labels. -/
def FirstUnknownLabel (blocks : List NamedBlock) (e : BlockError) : Prop :=
  ∃ i, ∃ hi : i < blocks.length, ∃ ls pre l post,
    blocks[i].JumpsTo ls ∧ ls = pre ++ l :: post ∧ (∀ l' ∈ pre, l' ∈ blocks.map (·.name)) ∧
    l ∉ blocks.map (·.name) ∧ (∀ k (hk : k < i), Resolved blocks blocks[k]) ∧
    e = .unknownLabel blocks[i].name l

structure Wired (blocks : List NamedBlock) (g : Cfg) : Prop where
  blocks_eq : g.blocks.toList = blocks
  jump : ∀ i (hi : i < blocks.length) ls, blocks[i].JumpsTo ls →
    List.Forall₂ (FirstNamed blocks) ls (g.successors i)
  ret : ∀ i (hi : i < blocks.length) o, blocks[i].block.ops.getLast? = some o → o.op = "ret" →
    g.successors i = []
  fallThrough : ∀ i (hi : i < blocks.length),
    (∀ o, blocks[i].block.ops.getLast? = some o → o.op ∉ ["jmp", "br", "ret"]) →
    g.successors i = if i + 1 < blocks.length then [i + 1] else []
  preds_ascending : ∀ j, (g.predecessors j).Pairwise (· < ·)
  mem_preds : ∀ i j, i ∈ g.predecessors j ↔ j ∈ g.successors i

section Successors

variable {blocks : List NamedBlock} {nb : NamedBlock} {i : Nat}

theorem indexOfName_eq_some_iff {l : String} {j : Nat} :
    indexOfName blocks.toArray l = some j ↔ FirstNamed blocks l j := by
  simp only [indexOfName, Array.findIdx?_eq_some_iff_getElem, FirstNamed, List.size_toArray,
    List.getElem_toArray, beq_iff_eq]
  constructor
  · rintro ⟨lt, named, before⟩
    refine ⟨by simp [lt, named], fun k hk => ?_⟩
    simpa [List.getElem?_eq_getElem (Nat.lt_trans hk lt)] using before k hk
  · rintro ⟨named, before⟩
    obtain ⟨lt, named⟩ : ∃ lt : j < blocks.length, blocks[j].name = l := by
      simpa [List.getElem?_eq_some_iff] using named
    refine ⟨lt, named, fun k hk same => before k hk ?_⟩
    simp [List.getElem?_eq_getElem (Nat.lt_trans hk lt), same]

theorem indexOfName_eq_none_iff {l : String} :
    indexOfName blocks.toArray l = none ↔ l ∉ blocks.map (·.name) := by
  simp [indexOfName]

theorem Block.control?_eq_some_iff {b : Block} {o : Operation} :
    b.control? = some o ↔ b.ops.getLast? = some o ∧ o.op ∈ ["jmp", "br", "ret"] := by
  simp [Block.control?, Operation.isControl, controlOps]

theorem NamedBlock.jumpsTo_iff {ls : List String} :
    nb.JumpsTo ls ↔ ∃ o, nb.block.control? = some o ∧ o.op ≠ "ret" ∧ o.labels = ls := by
  simp only [NamedBlock.JumpsTo, Block.control?_eq_some_iff]
  constructor
  · rintro ⟨o, last, jump, rfl⟩
    rcases jump with kind | kind <;> exact ⟨o, ⟨last, by simp [kind]⟩, by simp [kind], rfl⟩
  · rintro ⟨o, ⟨last, kind⟩, notRet, rfl⟩
    simp only [List.mem_cons, List.not_mem_nil, or_false] at kind
    exact ⟨o, last, by tauto, rfl⟩

theorem successorsOf_of_ret {o : Operation} (control : nb.block.control? = some o)
    (ret : o.op = "ret") : successorsOf blocks.toArray i nb = .ok [] := by
  simp [successorsOf, control, ret, pure, Except.pure]

theorem successorsOf_of_none (control : nb.block.control? = none) :
    successorsOf blocks.toArray i nb =
      .ok (if i + 1 < blocks.length then [i + 1] else []) := by
  simp [successorsOf, control, pure, Except.pure]

theorem successorsOf_eq_ok_of_jump {o : Operation} (control : nb.block.control? = some o)
    (notRet : o.op ≠ "ret") {s : List Nat} :
    successorsOf blocks.toArray i nb = .ok s ↔
      List.Forall₂ (fun l j => indexOfName blocks.toArray l = some j) o.labels s := by
  simp only [successorsOf, control, notRet, beq_iff_eq, if_false, mapM_eq_ok_iff]
  constructor <;> refine List.Forall₂.imp fun l j => ?_ <;>
    split <;> simp_all [pure, Except.pure, throw, throwThe, MonadExceptOf.throw]

theorem successorsOf_eq_error_iff {e : BlockError} :
    successorsOf blocks.toArray i nb = .error e ↔ ∃ ls pre l post, nb.JumpsTo ls ∧
      ls = pre ++ l :: post ∧ (∀ l' ∈ pre, l' ∈ blocks.map (·.name)) ∧
      l ∉ blocks.map (·.name) ∧ e = .unknownLabel nb.name l := by
  simp only [NamedBlock.jumpsTo_iff]
  cases control : nb.block.control? with
  | none => simp [successorsOf, control, pure, Except.pure]
  | some o =>
    by_cases ret : o.op = "ret"
    · simp [successorsOf_of_ret control ret, ret]
    · simp only [successorsOf, control, ret, beq_iff_eq, if_false, Option.some.injEq]
      rw [mapM_eq_error_iff_of (P := fun l => l ∈ blocks.map (·.name))
        (Q := fun l => l ∉ blocks.map (·.name) ∧ e = .unknownLabel nb.name l)]
      · constructor
        · rintro ⟨pre, l, post, split, known, unknown, rfl⟩
          exact ⟨o.labels, pre, l, post, ⟨o, rfl, ret, rfl⟩, split, known, unknown, rfl⟩
        · rintro ⟨ls, pre, l, post, ⟨o, rfl, -, rfl⟩, split, known, unknown, rfl⟩
          exact ⟨pre, l, post, split, known, unknown, rfl⟩
      · intro l
        rw [← not_not (a := l ∈ _), ← indexOfName_eq_none_iff]
        split <;> simp_all [pure, Except.pure, throw, throwThe, MonadExceptOf.throw]
      · intro l
        rw [← indexOfName_eq_none_iff]
        split <;> simp_all [pure, Except.pure, throw, throwThe, MonadExceptOf.throw, eq_comm]

theorem successorsOf_ok_iff_resolved :
    (∃ s, successorsOf blocks.toArray i nb = .ok s) ↔ Resolved blocks nb := by
  constructor
  · rintro ⟨s, ok⟩ ls jumps l hl
    obtain ⟨o, control, notRet, rfl⟩ := NamedBlock.jumpsTo_iff.mp jumps
    obtain ⟨j, -, found⟩ := exists_of_forall₂ ((successorsOf_eq_ok_of_jump control notRet).mp ok) hl
    exact by_contra fun unknown => by simp [indexOfName_eq_none_iff.mpr unknown] at found
  · intro resolved
    cases h : successorsOf blocks.toArray i nb with
    | ok s => exact ⟨s, rfl⟩
    | error e =>
      obtain ⟨ls, pre, l, post, jumps, rfl, -, unknown, -⟩ := successorsOf_eq_error_iff.mp h
      exact absurd (resolved _ jumps l (by simp)) unknown

end Successors

namespace Cfg

variable {blocks : List NamedBlock} {g : Cfg}

/-- Building fails with the fault of the first block whose successors cannot be found. -/
theorem ofBlocks_eq_error_iff {e : BlockError} :
    ofBlocks blocks = .error e ↔ ∃ i, ∃ hi : i < blocks.length,
      (∀ k (hk : k < i), ∃ s, successorsOf blocks.toArray k blocks[k] = .ok s) ∧
      successorsOf blocks.toArray i blocks[i] = .error e := by
  have step : ofBlocks blocks = .error e ↔ (List.range blocks.length).mapM
      (fun i => successorsOf blocks.toArray i (blocks.toArray[i]?.getD default)) = .error e := by
    unfold ofBlocks
    simp only [List.size_toArray]
    cases (List.range blocks.length).mapM
      (fun i => successorsOf blocks.toArray i (blocks.toArray[i]?.getD default)) <;>
      simp [bind, Except.bind, pure, Except.pure]
  rw [step, mapM_range_eq_error_iff]
  constructor
  · rintro ⟨i, hi, before, fails⟩
    refine ⟨i, hi, fun k hk => ?_, by simpa [hi] using fails⟩
    simpa [show k < blocks.length by omega] using before k hk
  · rintro ⟨i, hi, before, fails⟩
    refine ⟨i, hi, fun k hk => ?_, by simpa [hi] using fails⟩
    simpa [show k < blocks.length by omega] using before k hk

/-- A built graph keeps the blocks, and each block's successors are those `successorsOf`
finds. -/
theorem ofBlocks_eq_ok (h : ofBlocks blocks = .ok g) :
    g.blocks = blocks.toArray ∧
      ∀ i (hi : i < blocks.length), successorsOf blocks.toArray i blocks[i] = .ok (g.successors i) := by
  unfold ofBlocks at h
  simp only [List.size_toArray] at h
  generalize hs : (List.range blocks.length).mapM
    (fun i => successorsOf blocks.toArray i (blocks.toArray[i]?.getD default)) = res at h
  cases res with
  | error e => cases h
  | ok succs =>
    cases h
    have each := mapM_eq_ok_iff.mp hs
    have len : succs.length = blocks.length := by simpa using each.length_eq.symm
    refine ⟨rfl, fun i hi => ?_⟩
    have found := each.get (by simpa using hi) (by simpa [len] using hi)
    simp only [List.get_eq_getElem, List.getElem_range] at found
    simpa [successors, hi, len] using found

theorem ofBlocks_eq_error_iff_firstUnknownLabel {e : BlockError} :
    ofBlocks blocks = .error e ↔ FirstUnknownLabel blocks e := by
  rw [ofBlocks_eq_error_iff]
  constructor
  · rintro ⟨i, hi, before, fails⟩
    obtain ⟨ls, pre, l, post, jumps, split, known, unknown, rfl⟩ := successorsOf_eq_error_iff.mp fails
    exact ⟨i, hi, ls, pre, l, post, jumps, split, known, unknown,
      fun k hk => successorsOf_ok_iff_resolved.mp (before k hk), rfl⟩
  · rintro ⟨i, hi, ls, pre, l, post, jumps, split, known, unknown, before, rfl⟩
    exact ⟨i, hi, fun k hk => successorsOf_ok_iff_resolved.mpr (before k hk),
      successorsOf_eq_error_iff.mpr ⟨ls, pre, l, post, jumps, split, known, unknown, rfl⟩⟩

theorem ofBlocks_fails_iff :
    (∃ e, ofBlocks blocks = .error e) ↔
      ∃ nb ∈ blocks, ∃ ls, nb.JumpsTo ls ∧ ∃ l ∈ ls, l ∉ blocks.map (·.name) := by
  constructor
  · rintro ⟨e, fails⟩
    obtain ⟨i, hi, ls, pre, l, post, jumps, rfl, -, unknown, -⟩ :=
      ofBlocks_eq_error_iff_firstUnknownLabel.mp fails
    exact ⟨blocks[i], List.getElem_mem hi, _, jumps, l, by simp, unknown⟩
  · rintro ⟨nb, mem, ls, jumps, l, hl, unknown⟩
    cases built : ofBlocks blocks with
    | error e => exact ⟨e, rfl⟩
    | ok g =>
      -- every block of a built graph got its successors, so its labels all name blocks
      obtain ⟨i, hi, rfl⟩ := List.getElem_of_mem mem
      have resolved := successorsOf_ok_iff_resolved.mp ⟨_, (ofBlocks_eq_ok built).2 i hi⟩
      exact absurd (resolved ls jumps l hl) unknown

theorem ofBlocks_wired (h : ofBlocks blocks = .ok g) : Wired blocks g := by
  obtain ⟨same, succ⟩ := ofBlocks_eq_ok h
  have hg := ofBlocks_wellFormed h
  refine ⟨by simp [same], fun i hi ls jumps => ?_, fun i hi o last ret => ?_,
    fun i hi other => ?_, fun j => ?_, fun i j => hg.mem_predecessors⟩
  · obtain ⟨o, control, notRet, rfl⟩ := NamedBlock.jumpsTo_iff.mp jumps
    exact ((successorsOf_eq_ok_of_jump control notRet).mp (succ i hi)).imp
      fun l j found => indexOfName_eq_some_iff.mp found
  · have control : blocks[i].block.control? = some o :=
      Block.control?_eq_some_iff.mpr ⟨last, by simp [ret]⟩
    simpa using (succ i hi).symm.trans (successorsOf_of_ret control ret)
  · have control : blocks[i].block.control? = none := by
      cases hc : blocks[i].block.control? with
      | none => rfl
      | some o =>
        obtain ⟨last, kind⟩ := Block.control?_eq_some_iff.mp hc
        exact absurd kind (other o last)
    simpa using (succ i hi).symm.trans (successorsOf_of_none control)
  · rw [hg.preds_eq, predecessorsOf]
    exact List.pairwise_lt_range.filter _

end Cfg

/-- Building a graph from named blocks fails exactly when some block ending in `jmp` or `br`
has a label that names no block, and then with the first such block and its first such label;
a built graph has the edges `Wired` describes. -/
theorem ofBlocks_edges (blocks : List NamedBlock) :
    ((∃ e, Cfg.ofBlocks blocks = .error e) ↔
      ∃ nb ∈ blocks, ∃ ls, nb.JumpsTo ls ∧ ∃ l ∈ ls, l ∉ blocks.map (·.name)) ∧
    (∀ e, Cfg.ofBlocks blocks = .error e ↔ FirstUnknownLabel blocks e) ∧
    (∀ g, Cfg.ofBlocks blocks = .ok g → Wired blocks g) :=
  ⟨Cfg.ofBlocks_fails_iff, fun _ => Cfg.ofBlocks_eq_error_iff_firstUnknownLabel,
    fun _ => Cfg.ofBlocks_wired⟩

/-- Three blocks: `entry` branches to `t` on both arms, `t` is empty and falls through, `done`
returns. -/
def twiceBranch : List NamedBlock :=
  [{ name := "entry", block := { ops := [Operation.branch "c" "t" "t"] } },
   { name := "t", block := { label := some "t" } },
   { name := "done", block := { label := some "done", ops := [.ret] } }]

def twiceBranchGraph : Cfg :=
  { blocks := twiceBranch.toArray, succs := #[[1, 1], [2], []], preds := #[[], [0], [1]] }

theorem ofBlocks_edges_twiceBranch :
    Cfg.ofBlocks twiceBranch = .ok twiceBranchGraph ∧ Wired twiceBranch twiceBranchGraph := by
  have built : Cfg.ofBlocks twiceBranch = .ok twiceBranchGraph := by decide +kernel
  exact ⟨built, (ofBlocks_edges twiceBranch).2.2 _ built⟩

end BrilFlow
