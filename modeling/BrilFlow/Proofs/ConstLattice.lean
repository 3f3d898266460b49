import Mathlib
import BrilFlow.Proofs.SetAnalyses
import BrilFlow.Analysis.Constants

/-! Constant environments as a lattice: each variable's constant ordered flat, environments compared
variable by variable, merge and transfers monotone, and the height twice the variables. -/
namespace BrilFlow

namespace ConstValue

/-- The flat order of a variable's constant: absent, then a known literal, then unknown. -/
def Le : Option ConstValue → Option ConstValue → Prop
  | none, _ => True
  | some (.known a), some (.known b) => a = b
  | some _, some .unknown => True
  | _, _ => False

/-- The least upper bound of two constants: absent is least, and two different literals meet at
unknown. -/
def join : Option ConstValue → Option ConstValue → Option ConstValue
  | none, v => v
  | v, none => v
  | some a, some b => if a = b then some a else some .unknown

def rank : Option ConstValue → Nat
  | none => 0
  | some (.known _) => 1
  | some .unknown => 2

theorem le_refl (a : Option ConstValue) : Le a a := by
  rcases a with _ | _ | _ <;> simp [Le]

theorem le_trans {a b c : Option ConstValue} (ab : Le a b) (bc : Le b c) : Le a c := by
  rcases a with _ | _ | _ <;> rcases b with _ | _ | _ <;> rcases c with _ | _ | _ <;>
    simp_all [Le]

theorem le_antisymm {a b : Option ConstValue} (ab : Le a b) (ba : Le b a) : a = b := by
  rcases a with _ | _ | _ <;> rcases b with _ | _ | _ <;> simp_all [Le]

theorem le_join_left (a b : Option ConstValue) : Le a (join a b) := by
  rcases a with _ | _ | _ <;> rcases b with _ | _ | _ <;> simp only [Le, join] <;> grind

theorem le_join_right (a b : Option ConstValue) : Le b (join a b) := by
  rcases a with _ | _ | _ <;> rcases b with _ | _ | _ <;> simp only [Le, join] <;> grind

theorem join_le {a b c : Option ConstValue} (ac : Le a c) (bc : Le b c) : Le (join a b) c := by
  rcases a with _ | _ | _ <;> rcases b with _ | _ | _ <;> rcases c with _ | _ | _ <;>
    simp only [Le, join] at * <;> grind

@[simp] theorem join_none_right (a : Option ConstValue) : join a none = a := by
  cases a <;> rfl

theorem join_mono {a b c d : Option ConstValue} (ac : Le a c) (bd : Le b d) :
    Le (join a b) (join c d) :=
  join_le (le_trans ac (le_join_left c d)) (le_trans bd (le_join_right c d))

theorem rank_le_two (a : Option ConstValue) : rank a ≤ 2 := by
  rcases a with _ | _ | _ <;> simp [rank]

theorem rank_le_rank {a b : Option ConstValue} (ab : Le a b) : rank a ≤ rank b := by
  rcases a with _ | _ | _ <;> rcases b with _ | _ | _ <;> simp_all [Le, rank]

theorem rank_lt_rank {a b : Option ConstValue} (ab : Le a b) (ne : a ≠ b) : rank a < rank b := by
  rcases a with _ | _ | _ <;> rcases b with _ | _ | _ <;> simp_all [Le, rank]

end ConstValue

/-- The constant an operation writes to its destination: the literal of a `const` with one, and
unknown otherwise. -/
def Operation.constValue (o : Operation) : ConstValue :=
  match o.value, o.isConst with
  | some l, true => .known l
  | _, _ => .unknown

namespace ConstEnv

def Ordered (env : ConstEnv) : Prop := env.Pairwise fun a b => a.1 < b.1

def le (x y : ConstEnv) : Prop := ∀ k, ConstValue.Le (x.get? k) (y.get? k)

@[simp] theorem get?_nil (k : String) : get? [] k = none := rfl

theorem get?_cons (k' : String) (v : ConstValue) (env : ConstEnv) (k : String) :
    get? ((k', v) :: env) k = if k' = k then some v else get? env k := by
  by_cases same : k' = k <;> simp [get?, same]

theorem get?_set (k : String) (v : ConstValue) (env : ConstEnv) (j : String) :
    get? (set k v env) j = if k = j then some v else get? env j := by
  induction env with
  | nil => simp [set, get?_cons]
  | cons e rest ih =>
    obtain ⟨k', v'⟩ := e
    by_cases lt : k < k'
    · rw [set, if_pos lt, get?_cons]
    · by_cases same : k = k'
      · subst same
        rw [set, if_neg lt, if_pos rfl, get?_cons, get?_cons]
        by_cases hj : k = j <;> simp [hj]
      · rw [set, if_neg lt, if_neg same, get?_cons, ih, get?_cons]
        by_cases hj : k = j
        · subst hj
          simp [Ne.symm same]
        · simp [hj]

theorem mem_set {k : String} {v : ConstValue} {env : ConstEnv} {e : String × ConstValue}
    (mem : e ∈ set k v env) : e = (k, v) ∨ e ∈ env := by
  induction env with
  | nil => simpa [set] using mem
  | cons x rest ih =>
    simp only [set] at mem
    split_ifs at mem
    · simpa using mem
    · rcases List.mem_cons.mp mem with h | h
      · exact .inl h
      · exact .inr (List.mem_cons_of_mem _ h)
    · rcases List.mem_cons.mp mem with h | h
      · exact .inr (h ▸ List.mem_cons_self)
      · exact (ih h).imp_right (List.mem_cons_of_mem _)

theorem ordered_set (k : String) (v : ConstValue) {env : ConstEnv} (h : Ordered env) :
    Ordered (set k v env) := by
  induction env with
  | nil => simp [set, Ordered]
  | cons x rest ih =>
    obtain ⟨k', v'⟩ := x
    obtain ⟨below, tail⟩ := List.pairwise_cons.mp h
    simp only [set]
    split_ifs with lt same
    · refine List.pairwise_cons.mpr ⟨fun e he => ?_, h⟩
      rcases List.mem_cons.mp he with rfl | he
      · exact lt
      · exact lt_trans lt (below e he)
    · subst same
      exact List.pairwise_cons.mpr ⟨below, tail⟩
    · have gt : k' < k := lt_of_le_of_ne (not_lt.mp lt) (Ne.symm same)
      refine List.pairwise_cons.mpr ⟨fun e he => ?_, ih tail⟩
      rcases mem_set he with rfl | he
      · exact gt
      · exact below e he

theorem mem_of_get? {env : ConstEnv} {k : String} {v : ConstValue} (h : get? env k = some v) :
    (k, v) ∈ env := by
  induction env with
  | nil => simp at h
  | cons e rest ih =>
    obtain ⟨k', v'⟩ := e
    rw [get?_cons] at h
    split at h
    · next same =>
      subst same
      cases h
      exact List.mem_cons_self
    · exact List.mem_cons_of_mem _ (ih h)

theorem get?_eq_none {env : ConstEnv} {k : String} (absent : ∀ e ∈ env, e.1 ≠ k) :
    get? env k = none := by
  induction env with
  | nil => rfl
  | cons e rest ih =>
    obtain ⟨k', v'⟩ := e
    rw [get?_cons, if_neg (absent _ List.mem_cons_self)]
    exact ih fun e he => absent e (List.mem_cons_of_mem _ he)

theorem ext_get? {x y : ConstEnv} (hx : Ordered x) (hy : Ordered y)
    (same : ∀ k, get? x k = get? y k) : x = y := by
  induction x generalizing y with
  | nil =>
    cases y with
    | nil => rfl
    | cons e ys =>
      obtain ⟨k, v⟩ := e
      simpa [get?_cons] using (same k).symm
  | cons a xs ih =>
    cases y with
    | nil =>
      obtain ⟨k, v⟩ := a
      simpa [get?_cons] using same k
    | cons b ys =>
      obtain ⟨ka, va⟩ := a
      obtain ⟨kb, vb⟩ := b
      obtain ⟨aBelow, xRest⟩ := List.pairwise_cons.mp hx
      obtain ⟨bBelow, yRest⟩ := List.pairwise_cons.mp hy
      -- past its head, an ordered environment holds only greater keys
      have xNone : ∀ k, k ≤ ka → get? xs k = none := fun k le =>
        get?_eq_none fun e he h => absurd (aBelow e he) (by rw [h]; exact not_lt.mpr le)
      have yNone : ∀ k, k ≤ kb → get? ys k = none := fun k le =>
        get?_eq_none fun e he h => absurd (bBelow e he) (by rw [h]; exact not_lt.mpr le)
      have heads : ka = kb := by
        rcases lt_trichotomy ka kb with lt | eq | gt
        · have := same ka
          rw [get?_cons, get?_cons, if_pos rfl, if_neg (ne_of_gt lt), yNone ka lt.le] at this
          simp at this
        · exact eq
        · have := same kb
          rw [get?_cons, get?_cons, if_pos rfl, if_neg (ne_of_gt gt), xNone kb gt.le] at this
          simp at this
      subst heads
      have values : va = vb := by
        simpa [get?_cons] using same ka
      subst values
      congr 1
      apply ih xRest yRest
      intro k
      by_cases here : ka = k
      · subst here
        rw [xNone ka le_rfl, yNone ka le_rfl]
      · have := same k
        rwa [get?_cons, get?_cons, if_neg here, if_neg here] at this

theorem get?_mergeEntry (out : ConstEnv) (e : String × ConstValue) (k : String) :
    get? (mergeEntry out e) k =
      if e.1 = k then ConstValue.join (get? out k) (some e.2) else get? out k := by
  unfold mergeEntry
  split
  · next absent =>
    rw [get?_set]
    split
    · next same => subst same; rw [absent]; rfl
    · rfl
  · next existing found =>
    split
    · next equal =>
      split
      · next same => subst same; subst equal; simp [found, ConstValue.join]
      · rfl
    · next differ =>
      rw [get?_set]
      split
      · next same => subst same; simp [found, ConstValue.join, differ]
      · rfl

theorem get?_foldl_mergeEntry {env : ConstEnv} (h : Ordered env) (out : ConstEnv) (k : String) :
    get? (env.foldl mergeEntry out) k = ConstValue.join (get? out k) (get? env k) := by
  induction env generalizing out with
  | nil => simp
  | cons e rest ih =>
    obtain ⟨below, tail⟩ := List.pairwise_cons.mp h
    obtain ⟨k', v'⟩ := e
    rw [List.foldl_cons, ih tail, get?_mergeEntry, get?_cons]
    by_cases here : k' = k
    · subst here
      have absent : get? rest k' = none :=
        get?_eq_none fun e' he' same => lt_irrefl k' (same ▸ below e' he')
      rw [if_pos rfl, if_pos rfl, absent, ConstValue.join_none_right]
    · rw [if_neg here, if_neg here]

theorem ordered_foldl_mergeEntry (env : ConstEnv) {out : ConstEnv} (h : Ordered out) :
    Ordered (env.foldl mergeEntry out) := by
  induction env generalizing out with
  | nil => exact h
  | cons e rest ih =>
    rw [List.foldl_cons]
    apply ih
    unfold mergeEntry
    split
    · exact ordered_set _ _ h
    · split
      · exact h
      · exact ordered_set _ _ h

theorem ordered_mergeAll (envs : List ConstEnv) : Ordered (mergeAll envs) := by
  unfold mergeAll
  exact foldl_induction Ordered _ envs List.Pairwise.nil fun out h env _ =>
    ordered_foldl_mergeEntry env h

/-- A merge holds, for every variable, the least upper bound of its constants in the merged
environments. -/
theorem get?_mergeAll {envs : List ConstEnv} (h : ∀ env ∈ envs, Ordered env) (k : String) :
    get? (mergeAll envs) k = (envs.map (get? · k)).foldl ConstValue.join none := by
  unfold mergeAll
  suffices ∀ out : ConstEnv, get? (envs.foldl (fun out env => env.foldl mergeEntry out) out) k =
      (envs.map (get? · k)).foldl ConstValue.join (get? out k) from this []
  induction envs with
  | nil => simp
  | cons env rest ih =>
    intro out
    rw [List.foldl_cons, ih fun e he => h e (List.mem_cons_of_mem _ he),
      get?_foldl_mergeEntry (h env List.mem_cons_self)]
    rfl

theorem mem_foldl_mergeEntry {env out : ConstEnv} {e : String × ConstValue}
    (mem : e ∈ env.foldl mergeEntry out) : (∃ v, (e.1, v) ∈ out) ∨ ∃ v, (e.1, v) ∈ env := by
  induction env generalizing out with
  | nil => exact .inl ⟨e.2, mem⟩
  | cons x rest ih =>
    rw [List.foldl_cons] at mem
    rcases ih mem with ⟨v, hv⟩ | ⟨v, hv⟩
    · unfold mergeEntry at hv
      -- an entry of a merged environment is an entry before, or has the merged key
      have fromSet : ∀ w, (e.1, v) ∈ set x.1 w out → (∃ v, (e.1, v) ∈ out) ∨
          ∃ v, (e.1, v) ∈ x :: rest := fun w hw => by
        rcases mem_set hw with same | old
        · exact .inr ⟨x.2, by rw [(Prod.mk.inj same).1]; exact List.mem_cons_self⟩
        · exact .inl ⟨v, old⟩
      split at hv
      · exact fromSet _ hv
      · split at hv
        · exact .inl ⟨v, hv⟩
        · exact fromSet _ hv
    · exact .inr ⟨v, List.mem_cons_of_mem _ hv⟩

theorem mem_mergeAll {envs : List ConstEnv} {e : String × ConstValue} (mem : e ∈ mergeAll envs) :
    ∃ env ∈ envs, ∃ v, (e.1, v) ∈ env := by
  unfold mergeAll at mem
  suffices ∀ out : ConstEnv, e ∈ envs.foldl (fun out env => env.foldl mergeEntry out) out →
      (∃ v, (e.1, v) ∈ out) ∨ ∃ env ∈ envs, ∃ v, (e.1, v) ∈ env by
    rcases this [] mem with ⟨v, hv⟩ | found
    · simp at hv
    · exact found
  clear mem
  induction envs with
  | nil => exact fun out h => .inl ⟨e.2, h⟩
  | cons env rest ih =>
    intro out h
    rw [List.foldl_cons] at h
    rcases ih _ h with ⟨v, hv⟩ | ⟨env', hEnv, v, hv⟩
    · rcases mem_foldl_mergeEntry hv with ⟨w, hw⟩ | ⟨w, hw⟩
      · exact .inl ⟨w, hw⟩
      · exact .inr ⟨env, List.mem_cons_self, w, hw⟩
    · exact .inr ⟨env', List.mem_cons_of_mem _ hEnv, v, hv⟩

theorem step_eq (env : ConstEnv) (o : Operation) :
    step env o = match o.dest with
      | none => env
      | some d => set d o.constValue env := by
  unfold step Operation.constValue
  cases o.dest with
  | none => rfl
  | some d =>
    dsimp only
    split <;> simp_all

theorem get?_step (env : ConstEnv) (o : Operation) (k : String) :
    get? (step env o) k = if o.dest = some k then some o.constValue else get? env k := by
  rw [step_eq]
  cases h : o.dest with
  | none => simp
  | some d => simp [get?_set]

theorem ordered_step {env : ConstEnv} (h : Ordered env) (o : Operation) : Ordered (step env o) := by
  rw [step_eq]
  cases o.dest with
  | none => exact h
  | some d => exact ordered_set _ _ h

theorem le_step {x y : ConstEnv} (le : ConstEnv.le x y) (o : Operation) :
    ConstEnv.le (step x o) (step y o) := by
  intro k
  rw [get?_step, get?_step]
  split
  · exact ConstValue.le_refl _
  · exact le k

theorem mem_step {env : ConstEnv} {o : Operation} {e : String × ConstValue}
    (mem : e ∈ step env o) : o.dest = some e.1 ∨ e ∈ env := by
  rw [step_eq] at mem
  cases h : o.dest with
  | none => rw [h] at mem; exact .inr mem
  | some d =>
    rw [h] at mem
    rcases mem_set mem with rfl | old
    · exact .inl rfl
    · exact .inr old

end ConstEnv

namespace ConstEnv

theorem le_antisymm {x y : ConstEnv} (hx : Ordered x) (hy : Ordered y) (xy : ConstEnv.le x y)
    (yx : ConstEnv.le y x) : x = y :=
  ext_get? hx hy fun k => ConstValue.le_antisymm (xy k) (yx k)

theorem le_mergeAll {xs ys : List ConstEnv} (rel : List.Forall₂ ConstEnv.le xs ys)
    (hx : ∀ x ∈ xs, Ordered x) (hy : ∀ y ∈ ys, Ordered y) :
    ConstEnv.le (mergeAll xs) (mergeAll ys) := by
  intro k
  rw [get?_mergeAll hx, get?_mergeAll hy]
  -- joining pairwise related constants from related starts keeps them related
  suffices ∀ a b, ConstValue.Le a b → ConstValue.Le ((xs.map (get? · k)).foldl
      ConstValue.join a) ((ys.map (get? · k)).foldl ConstValue.join b) from
    this none none trivial
  clear hx hy
  induction rel with
  | nil => exact fun _ _ h => h
  | cons r _ ih =>
    intro a b h
    exact ih _ _ (ConstValue.join_mono h (r k))

theorem le_foldl_step (ops : List Operation) {x y : ConstEnv} (le : ConstEnv.le x y) :
    ConstEnv.le (ops.foldl step x) (ops.foldl step y) := by
  induction ops generalizing x y with
  | nil => exact le
  | cons o ops ih => exact ih (le_step le o)

variable (U : List String)

def rank (x : ConstEnv) : Nat := ∑ k ∈ U.toFinset, ConstValue.rank (x.get? k)

theorem rank_le (x : ConstEnv) : rank U x ≤ 2 * U.length :=
  calc rank U x ≤ ∑ _k ∈ U.toFinset, 2 := Finset.sum_le_sum fun k _ => ConstValue.rank_le_two _
    _ = 2 * U.toFinset.card := by simp [Nat.mul_comm]
    _ ≤ 2 * U.length := Nat.mul_le_mul_left _ (List.toFinset_card_le _)

theorem rank_lt {x y : ConstEnv} (hx : Ordered x) (hy : Ordered y) (bx : ∀ e ∈ x, e.1 ∈ U)
    (by_ : ∀ e ∈ y, e.1 ∈ U) (le : ConstEnv.le x y) (ne : x ≠ y) : rank U x < rank U y := by
  -- the environments differ at some variable, which both hold within `U`
  obtain ⟨k, differ⟩ : ∃ k, get? x k ≠ get? y k := by
    by_contra same
    simp only [not_exists, not_not] at same
    exact ne (ext_get? hx hy same)
  have within : k ∈ U.toFinset := by
    rw [List.mem_toFinset]
    cases hk : get? x k with
    | some v => exact bx (k, v) (mem_of_get? hk)
    | none =>
      cases hk' : get? y k with
      | none => exact absurd (hk.trans hk'.symm) differ
      | some v => exact by_ (k, v) (mem_of_get? hk')
  exact Finset.sum_lt_sum (fun j _ => ConstValue.rank_le_rank (le j))
    ⟨k, within, ConstValue.rank_lt_rank (le k) differ⟩

end ConstEnv

section Constants

variable (g : Cfg)

theorem constants_transfer_eq (n : Nat) (x : ConstEnv) :
    (constantsProblem g).transfer n x =
      (((g.block? n).map Block.ops).getD []).foldl ConstEnv.step x := by
  simp only [constantsProblem]
  split <;> simp_all

theorem constants_ordered_transfer (n : Nat) {x : ConstEnv} (h : ConstEnv.Ordered x) :
    ConstEnv.Ordered ((constantsProblem g).transfer n x) := by
  rw [constants_transfer_eq]
  exact foldl_induction ConstEnv.Ordered _ _ h fun env he o _ => ConstEnv.ordered_step he o

theorem constants_transfer_mono (n : Nat) {x y : ConstEnv} (le : ConstEnv.le x y) :
    ConstEnv.le ((constantsProblem g).transfer n x) ((constantsProblem g).transfer n y) := by
  rw [constants_transfer_eq, constants_transfer_eq]
  exact ConstEnv.le_foldl_step _ le

theorem constants_transfer_within (n : Nat) {x : ConstEnv} (within : ∀ e ∈ x, e.1 ∈ g.varNames) :
    ∀ e ∈ (constantsProblem g).transfer n x, e.1 ∈ g.varNames := by
  rw [constants_transfer_eq]
  cases block : g.block? n with
  | none => exact within
  | some b =>
    refine foldl_induction (fun env : ConstEnv => ∀ e ∈ env, e.1 ∈ g.varNames) _ _ within
      fun env inside o ho e he => ?_
    rcases ConstEnv.mem_step he with dest | old
    · exact Cfg.mem_varNames block ho (.inl dest)
    · exact inside e old

theorem constants_height_le : 2 * g.varNames.length ≤ (constantsProblem g).height := by
  have := g.length_varNames_le
  simp only [constantsProblem]
  omega

end Constants

/-- The framework of constant propagation: ordered environments over the function's variables,
variable by variable. -/
def constantsFramework (g : Cfg) : (constantsProblem g).Framework where
  le := ConstEnv.le
  canon := ConstEnv.Ordered
  le_refl _ _ := ConstValue.le_refl _
  le_trans xy yz k := ConstValue.le_trans (xy k) (yz k)
  le_antisymm := ConstEnv.le_antisymm
  canon_init := List.Pairwise.nil
  canon_merge := ConstEnv.ordered_mergeAll
  canon_transfer := constants_ordered_transfer g
  init_le _ _ := trivial
  merge_mono := ConstEnv.le_mergeAll
  transfer_mono n _ _ _ _ le := constants_transfer_mono g n le
  bounded x := ∀ e ∈ x, e.1 ∈ g.varNames
  bounded_init _ mem := absurd mem List.not_mem_nil
  bounded_merge {xs} within e he := by
    obtain ⟨env, hEnv, v, hv⟩ := ConstEnv.mem_mergeAll he
    exact within env hEnv (e.1, v) hv
  bounded_transfer := constants_transfer_within g
  rank := ConstEnv.rank g.varNames
  height := 2 * g.varNames.length
  rank_le _ _ := ConstEnv.rank_le _ _
  rank_lt hx hy bx by_ le ne := ConstEnv.rank_lt _ hx hy bx by_ le ne
  height_le := constants_height_le g

end BrilFlow
