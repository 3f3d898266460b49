import Mathlib.Data.List.Perm.Subperm
import BrilFlow.Analysis.Sorted
import BrilFlow.Analysis.Reaching
import BrilFlow.Analysis.Available

/-! Sorted lists as finite sets. A canonical list is strictly increasing in a lawful order;
insertion, union, difference and intersection act on membership as set operations and keep
lists canonical, and two canonical lists with the same members are equal. -/
namespace BrilFlow.Sorted

variable {α : Type} [Ord α]

/-- Strictly increasing: every element once, in order. -/
def Canon (xs : List α) : Prop := xs.Pairwise fun a b => compare a b = .lt

@[simp] theorem canon_nil : Canon ([] : List α) := List.Pairwise.nil

theorem canon_cons {x : α} {xs : List α} :
    Canon (x :: xs) ↔ (∀ y ∈ xs, compare x y = .lt) ∧ Canon xs := List.pairwise_cons

theorem canon_diff {xs : List α} (ys : List α) (h : Canon xs) : Canon (diff xs ys) := h.filter _

theorem canon_inter {xs : List α} (ys : List α) (h : Canon xs) : Canon (inter xs ys) := h.filter _

theorem canon_foldl_inter {acc : List α} (sets : List (List α)) (h : Canon acc) :
    Canon (sets.foldl inter acc) := by
  induction sets generalizing acc with
  | nil => exact h
  | cons s sets ih => exact ih (canon_inter s h)

section Membership

variable [Std.LawfulEqOrd α]

theorem Canon.nodup {xs : List α} (h : Canon xs) : xs.Nodup :=
  h.imp fun {a b} lt eq => by subst eq; simp [Std.ReflCmp.compare_self] at lt

@[simp] theorem mem_insert {a x : α} {xs : List α} : a ∈ insert x xs ↔ a = x ∨ a ∈ xs := by
  induction xs with
  | nil => simp [insert]
  | cons y ys ih =>
    simp only [insert]
    split
    · simp
    · next same =>
      have := Std.LawfulEqCmp.eq_of_compare same
      subst this; simp
    · simp only [List.mem_cons, ih]; tauto

@[simp] theorem mem_iff {x : α} {xs : List α} : mem x xs = true ↔ x ∈ xs := by
  simp [mem, Std.LawfulEqCmp.compare_eq_iff_eq]

@[simp] theorem mem_union {a : α} {xs ys : List α} : a ∈ union xs ys ↔ a ∈ xs ∨ a ∈ ys := by
  induction ys generalizing xs with
  | nil => simp [union]
  | cons y ys ih =>
    simp only [union, List.foldl_cons] at ih ⊢
    rw [ih, mem_insert, List.mem_cons]
    tauto

theorem mem_foldl_union {a : α} {acc : List α} {sets : List (List α)} :
    a ∈ sets.foldl union acc ↔ a ∈ acc ∨ ∃ s ∈ sets, a ∈ s := by
  induction sets generalizing acc with
  | nil => simp
  | cons s sets ih =>
    simp only [List.foldl_cons, ih, mem_union, List.mem_cons, exists_eq_or_imp]
    tauto

@[simp] theorem mem_unionAll {a : α} {sets : List (List α)} :
    a ∈ unionAll sets ↔ ∃ s ∈ sets, a ∈ s := by
  simp [unionAll, mem_foldl_union]

theorem mem_foldl_insert {a : α} {acc xs : List α} :
    a ∈ xs.foldl (fun acc x => insert x acc) acc ↔ a ∈ acc ∨ a ∈ xs := by
  induction xs generalizing acc with
  | nil => simp
  | cons x xs ih => simp only [List.foldl_cons, ih, mem_insert, List.mem_cons]; tauto

@[simp] theorem mem_ofList {a : α} {xs : List α} : a ∈ ofList xs ↔ a ∈ xs := by
  simp [ofList, mem_foldl_insert]

@[simp] theorem mem_diff {a : α} {xs ys : List α} : a ∈ diff xs ys ↔ a ∈ xs ∧ a ∉ ys := by
  simp [diff, Bool.eq_false_iff]

@[simp] theorem mem_inter {a : α} {xs ys : List α} : a ∈ inter xs ys ↔ a ∈ xs ∧ a ∈ ys := by
  simp [inter]

theorem mem_foldl_inter {a : α} {acc : List α} {sets : List (List α)} :
    a ∈ sets.foldl inter acc ↔ a ∈ acc ∧ ∀ s ∈ sets, a ∈ s := by
  induction sets generalizing acc with
  | nil => simp
  | cons s sets ih =>
    simp only [List.foldl_cons, ih, mem_inter, List.mem_cons, forall_eq_or_imp]
    tauto

end Membership

section Order

variable [Std.TransOrd α] [Std.LawfulEqOrd α]

theorem canon_insert (x : α) {xs : List α} (h : Canon xs) : Canon (insert x xs) := by
  induction xs with
  | nil => simp [insert, Canon]
  | cons y ys ih =>
    obtain ⟨below, rest⟩ := canon_cons.mp h
    simp only [insert]
    split
    · next lt =>
      refine canon_cons.mpr ⟨fun z hz => ?_, h⟩
      rcases List.mem_cons.mp hz with rfl | hz
      · exact lt
      · exact Std.TransCmp.lt_trans lt (below z hz)
    · exact h
    · next gt =>
      refine canon_cons.mpr ⟨fun z hz => ?_, ih rest⟩
      rcases mem_insert.mp hz with rfl | hz
      · exact Std.OrientedCmp.lt_of_gt gt
      · exact below z hz

theorem canon_union {xs : List α} (ys : List α) (h : Canon xs) : Canon (union xs ys) := by
  induction ys generalizing xs with
  | nil => exact h
  | cons y ys ih => exact ih (canon_insert y h)

theorem canon_unionAll (sets : List (List α)) : Canon (unionAll sets) := by
  suffices ∀ acc : List α, Canon acc → Canon (sets.foldl union acc) from this [] canon_nil
  induction sets with
  | nil => exact fun _ h => h
  | cons s sets ih => exact fun acc h => ih _ (canon_union s h)

theorem canon_ofList (xs : List α) : Canon (ofList xs) := canon_union xs canon_nil

theorem length_ofList_le (xs : List α) : (ofList xs).length ≤ xs.length :=
  (canon_ofList xs).nodup.length_le_of_subset fun _ => mem_ofList.mp

/-- A canonical list is determined by its members. -/
theorem eq_of_mem_iff {xs ys : List α} (hx : Canon xs) (hy : Canon ys)
    (same : ∀ a, a ∈ xs ↔ a ∈ ys) : xs = ys := by
  induction xs generalizing ys with
  | nil =>
    cases ys with
    | nil => rfl
    | cons y ys => simpa using same y
  | cons x xs ih =>
    cases ys with
    | nil => simpa using same x
    | cons y ys =>
      obtain ⟨xBelow, xRest⟩ := canon_cons.mp hx
      obtain ⟨yBelow, yRest⟩ := canon_cons.mp hy
      -- the heads are the least members of both lists
      have head : x = y := by
        rcases List.mem_cons.mp ((same x).mp (by simp)) with h | xInYs
        · exact h
        rcases List.mem_cons.mp ((same y).mpr (by simp)) with h | yInXs
        · exact h.symm
        exact absurd (Std.OrientedCmp.gt_of_lt (yBelow x xInYs)) (by simp [xBelow y yInXs])
      subst head
      have tails : ∀ a, a ∈ xs ↔ a ∈ ys := by
        intro a
        have := same a
        constructor
        · intro ha
          rcases List.mem_cons.mp (this.mp (by simp [ha])) with rfl | h
          · exact absurd ha (List.nodup_cons.mp hx.nodup).1
          · exact h
        · intro ha
          rcases List.mem_cons.mp (this.mpr (by simp [ha])) with rfl | h
          · exact absurd ha (List.nodup_cons.mp hy.nodup).1
          · exact h
      rw [ih xRest yRest tails]

/-- A canonical list inside another that it differs from is shorter. -/
theorem length_lt_of_subset {xs ys : List α} (hx : Canon xs) (hy : Canon ys) (sub : xs ⊆ ys)
    (ne : xs ≠ ys) : xs.length < ys.length := by
  classical
  have missing : ∃ b ∈ ys, b ∉ xs := by
    by_contra none
    simp only [not_exists, not_and, not_not] at none
    exact ne (eq_of_mem_iff hx hy fun a => ⟨fun h => sub h, none a⟩)
  obtain ⟨b, hb, notIn⟩ := missing
  have into : xs ⊆ ys.erase b := fun a ha =>
    (List.mem_erase_of_ne (by rintro rfl; exact notIn ha)).mpr (sub ha)
  have := hx.nodup.length_le_of_subset into
  rw [List.length_erase_of_mem hb] at this
  have := List.length_pos_of_mem hb
  omega

end Order

end BrilFlow.Sorted

namespace BrilFlow

/-! The orders of the items the analyses collect are lawful: strings, definition sites by
variable, block and index, and expressions by opcode and then operands. -/

theorem compare_string (x y : String) :
    compare x y = if x < y then .lt else if x = y then .eq else .gt := rfl

theorem Block.insertName_eq_insert (x : String) (ys : List String) :
    Block.insertName x ys = Sorted.insert x ys := by
  induction ys with
  | nil => rfl
  | cons y ys ih =>
    simp only [Block.insertName, Sorted.insert, compare_string]
    by_cases lt : x < y
    · simp [lt]
    · by_cases eq : x = y
      · simp [eq]
      · simp [lt, eq, ih]

instance : Std.TransOrd DefSite :=
  inferInstanceAs (Std.TransCmp (compareLex (compareOn DefSite.var)
    (compareLex (compareOn DefSite.block) (compareOn DefSite.index))))

instance : Std.LawfulEqOrd DefSite where
  eq_of_compare {a b} h := by
    have parts : (compare a.var b.var).then ((compare a.block b.block).then
        (compare a.index b.index)) = .eq := h
    simp only [Ordering.then_eq_eq, Std.LawfulEqCmp.compare_eq_iff_eq] at parts
    cases a; cases b; simp_all

theorem compareStrings_eq_compareLex :
    compareStrings = List.compareLex (compare : String → String → Ordering) := by
  funext xs ys
  induction xs generalizing ys with
  | nil => cases ys <;> rfl
  | cons x xs ih =>
    cases ys with
    | nil => rfl
    | cons y ys => simp [compareStrings, List.compareLex_cons_cons, ih]

theorem Expr.compare_eq_compareLex :
    (compare : Expr → Expr → Ordering) =
      compareLex (compareOn Expr.op) (compareOn Expr.operands) := by
  funext a b
  show (compare a.op b.op).then (compareStrings a.operands b.operands) = _
  rw [compareStrings_eq_compareLex]
  rfl

instance : Std.TransOrd Expr := by
  unfold Std.TransOrd
  rw [Expr.compare_eq_compareLex]
  infer_instance

instance : Std.LawfulEqOrd Expr where
  eq_of_compare {a b} h := by
    rw [Expr.compare_eq_compareLex] at h
    simp only [compareLex, compareOn, Ordering.then_eq_eq, Std.LawfulEqCmp.compare_eq_iff_eq] at h
    cases a; cases b; simp_all

end BrilFlow
