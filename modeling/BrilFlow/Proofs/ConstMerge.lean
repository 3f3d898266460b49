import BrilFlow.Proofs.ConstLattice

/-! Merging constant environments gives, variable by variable, the least upper bound in the flat
order, so the merge depends only on which environments are merged. -/
namespace BrilFlow

namespace ConstValue

variable {cs cs' : List (Option ConstValue)} {a c d : Option ConstValue} {l : Literal}

theorem join_le_iff {a b c : Option ConstValue} : Le (join a b) c ↔ Le a c ∧ Le b c :=
  ⟨fun h => ⟨le_trans (le_join_left a b) h, le_trans (le_join_right a b) h⟩,
    fun ⟨ac, bc⟩ => join_le ac bc⟩

theorem foldl_join_le_iff (cs : List (Option ConstValue)) (acc d : Option ConstValue) :
    Le (cs.foldl join acc) d ↔ Le acc d ∧ ∀ a ∈ cs, Le a d := by
  induction cs generalizing acc with
  | nil => simp
  | cons c cs ih => rw [List.foldl_cons, ih, join_le_iff, List.forall_mem_cons, and_assoc]

@[simp] theorem le_none_iff : Le a none ↔ a = none := by
  rcases a with _ | _ | _ <;> simp [Le]

theorem le_known_iff : Le a (some (.known l)) ↔ a = none ∨ a = some (.known l) := by
  rcases a with _ | _ | _ <;> simp [Le, eq_comm]

@[simp] theorem unknown_le_iff : Le (some .unknown) c ↔ c = some .unknown := by
  rcases c with _ | _ | _ <;> simp [Le]

structure IsLub (cs : List (Option ConstValue)) (c : Option ConstValue) : Prop where
  upper : ∀ a ∈ cs, Le a c
  least : ∀ d, (∀ a ∈ cs, Le a d) → Le c d

theorem isLub_foldl_join (cs : List (Option ConstValue)) : IsLub cs (cs.foldl join none) where
  upper a ha := ((foldl_join_le_iff cs none _).mp (le_refl _)).2 a ha
  least d above := (foldl_join_le_iff cs none d).mpr ⟨trivial, above⟩

theorem IsLub.unique {c' : Option ConstValue} (h : IsLub cs c) (h' : IsLub cs' c')
    (same : ∀ a, a ∈ cs ↔ a ∈ cs') : c = c' :=
  le_antisymm (h.least _ fun a ha => h'.upper a ((same a).mp ha))
    (h'.least _ fun a ha => h.upper a ((same a).mpr ha))

theorem IsLub.eq_none_iff (h : IsLub cs c) : c = none ↔ ∀ a ∈ cs, a = none := by
  constructor
  · rintro rfl a ha
    exact le_none_iff.mp (h.upper a ha)
  · intro absent
    exact le_none_iff.mp (h.least none fun a ha => le_none_iff.mpr (absent a ha))

theorem IsLub.eq_known_iff (h : IsLub cs c) :
    c = some (.known l) ↔ (∃ a ∈ cs, a ≠ none) ∧ ∀ a ∈ cs, a = none ∨ a = some (.known l) := by
  constructor
  · rintro rfl
    refine ⟨?_, fun a ha => le_known_iff.mp (h.upper a ha)⟩
    by_contra absent
    push Not at absent
    exact absurd (h.eq_none_iff.mpr absent) (by simp)
  · rintro ⟨⟨a, ha, present⟩, agree⟩
    rcases le_known_iff.mp (h.least _ fun a ha => le_known_iff.mpr (agree a ha)) with none | known
    · exact absurd (h.eq_none_iff.mp none a ha) present
    · exact known

theorem IsLub.eq_unknown_iff (h : IsLub cs c) :
    c = some .unknown ↔ some .unknown ∈ cs ∨
      ∃ l₁ l₂, some (.known l₁) ∈ cs ∧ some (.known l₂) ∈ cs ∧ l₁ ≠ l₂ := by
  constructor
  · intro unknown
    by_contra neither
    push Not at neither
    obtain ⟨noUnknown, agree⟩ := neither
    -- with no unknown and no two literals apart, some bound other than unknown lies above all
    have bound : ∃ d, d ≠ some .unknown ∧ ∀ a ∈ cs, Le a d := by
      by_cases known : ∃ l', some (.known l') ∈ cs
      · obtain ⟨l', hl'⟩ := known
        refine ⟨some (.known l'), by simp, fun a ha => ?_⟩
        rcases a with _ | a | _
        · trivial
        · exact le_known_iff.mpr (.inr (by rw [agree l' a hl' ha]))
        · exact absurd ha noUnknown
      · push Not at known
        refine ⟨none, by simp, fun a ha => ?_⟩
        rcases a with _ | a | _
        · trivial
        · exact absurd ha (known a)
        · exact absurd ha noUnknown
    obtain ⟨d, ne, above⟩ := bound
    exact ne (unknown_le_iff.mp (unknown ▸ h.least d above))
  · rintro (unknown | ⟨l₁, l₂, h₁, h₂, differ⟩)
    · exact unknown_le_iff.mp (h.upper _ unknown)
    · rcases c with _ | _ | _
      · exact absurd (h.upper _ h₁) (by simp)
      · have e₁ := h.upper _ h₁
        have e₂ := h.upper _ h₂
        simp only [Le] at e₁ e₂
        exact absurd (e₁.trans e₂.symm) differ
      · rfl

end ConstValue

namespace ConstEnv

variable {vs : List ConstEnv}

/-- A merge holds, for each variable, the least upper bound of its constants in the merged
environments. -/
theorem isLub_get?_mergeAll (ordered : ∀ env ∈ vs, Ordered env) (x : String) :
    ConstValue.IsLub (vs.map (get? · x)) (get? (mergeAll vs) x) := by
  rw [get?_mergeAll ordered]
  exact ConstValue.isLub_foldl_join _

end ConstEnv

/-- What a merge of the environments `vs` holds for each variable: nothing when none of them has
it, a literal when every one that has it holds that literal, and unknown when one holds unknown
or two hold different literals. That is the least upper bound of their constants in the flat
order, variable by variable, so the merge is an environment in order that does not depend on the
order of `vs` or on repeats in it. -/
structure MergesFlat (vs : List ConstEnv) : Prop where
  absent_iff : ∀ x, (ConstEnv.mergeAll vs).get? x = none ↔ ∀ env ∈ vs, env.get? x = none
  known_iff : ∀ x l, (ConstEnv.mergeAll vs).get? x = some (.known l) ↔
    (∃ env ∈ vs, env.get? x ≠ none) ∧ ∀ env ∈ vs, ∀ c, env.get? x = some c → c = .known l
  unknown_iff : ∀ x, (ConstEnv.mergeAll vs).get? x = some .unknown ↔
    (∃ env ∈ vs, env.get? x = some .unknown) ∨
      ∃ env₁ ∈ vs, ∃ env₂ ∈ vs, ∃ l₁ l₂, env₁.get? x = some (.known l₁) ∧
        env₂.get? x = some (.known l₂) ∧ l₁ ≠ l₂
  upper : ∀ x, ∀ env ∈ vs, ConstValue.Le (env.get? x) ((ConstEnv.mergeAll vs).get? x)
  least : ∀ x c, (∀ env ∈ vs, ConstValue.Le (env.get? x) c) →
    ConstValue.Le ((ConstEnv.mergeAll vs).get? x) c
  ordered : ConstEnv.Ordered (ConstEnv.mergeAll vs)
  same_members : ∀ ws : List ConstEnv, (∀ env, env ∈ ws ↔ env ∈ vs) →
    ConstEnv.mergeAll ws = ConstEnv.mergeAll vs

theorem mergeAll_pointwise_join (vs : List ConstEnv) (ordered : ∀ env ∈ vs, ConstEnv.Ordered env) :
    MergesFlat vs := by
  have lub := ConstEnv.isLub_get?_mergeAll ordered
  refine ⟨fun x => ?_, fun x l => ?_, fun x => ?_, fun x env h => ?_, fun x c above => ?_,
    ConstEnv.ordered_mergeAll vs, fun ws same => ?_⟩
  · simp [(lub x).eq_none_iff]
  · rw [(lub x).eq_known_iff]
    simp only [List.mem_map, ne_eq, forall_exists_index, and_imp, forall_apply_eq_imp_iff₂]
    refine and_congr (by grind) (forall₂_congr fun env _ => ?_)
    cases env.get? x <;> simp [eq_comm]
  · rw [(lub x).eq_unknown_iff]
    simp only [List.mem_map]
    grind
  · exact (lub x).upper _ (List.mem_map_of_mem h)
  · exact (lub x).least c (by simpa using above)
  · -- the merged environments are the same, so the least upper bounds are
    have orderedWs : ∀ env ∈ ws, ConstEnv.Ordered env := fun env h => ordered env ((same env).mp h)
    refine ConstEnv.ext_get? (ConstEnv.ordered_mergeAll ws) (ConstEnv.ordered_mergeAll vs)
      fun x => ?_
    refine (ConstEnv.isLub_get?_mergeAll orderedWs x).unique (lub x) fun a => ?_
    simp only [List.mem_map, same]

/-- Merging an environment holding `0.0` at `x` with one holding `-0.0` there. -/
theorem mergeAll_pointwise_join_signedZero :
    (∀ env ∈ [[("x", ConstValue.known (.float 0))],
      [("x", ConstValue.known (.float 0x8000000000000000))]], ConstEnv.Ordered env) ∧
    MergesFlat [[("x", .known (.float 0))], [("x", .known (.float 0x8000000000000000))]] :=
  ⟨by simp [ConstEnv.Ordered], mergeAll_pointwise_join _ (by simp [ConstEnv.Ordered])⟩

end BrilFlow
