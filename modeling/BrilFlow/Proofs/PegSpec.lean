import Mathlib.Data.List.Basic
import BrilFlow.Text.Peg

/-! What a parser does from a position, whatever failures were kept: `Parses`, `Fails` and
`Repeats` with one rule per combinator, and `Yields` for what a parser gives from anywhere. -/
namespace BrilFlow.Text.Peg

variable {ρ α β γ : Type} {s : Array Char} {i j k : Nat}

/-- From position `i` of `s`, `p` gives `a` and stops at `j`, whatever failures were kept. -/
def Parses (p : Peg ρ α) (s : Array Char) (i : Nat) (a : α) (j : Nat) : Prop :=
  ∀ c : Cursor ρ, c.pos = i → (p s c).1 = some a ∧ (p s c).2.pos = j

/-- From position `i` of `s`, `p` fails, whatever failures were kept. -/
def Fails (p : Peg ρ α) (s : Array Char) (i : Nat) : Prop :=
  ∀ c : Cursor ρ, c.pos = i → (p s c).1 = none

/-- Whatever `p` gives from anywhere in `s` satisfies `P`. -/
def Yields (p : Peg ρ α) (s : Array Char) (P : α → Prop) : Prop :=
  ∀ c : Cursor ρ, ∀ a ∈ (p s c).1, P a

theorem getElem?_eq_head?_drop (s : Array Char) (i : Nat) : s[i]? = (s.toList.drop i).head? := by
  rw [List.head?_drop, Array.getElem?_toList]

theorem forall_head?_cons {P' : Char → Prop} {c : Char} {l : List Char} (h : P' c) :
    ∀ x ∈ (c :: l).head?, P' x := by
  simpa using h

theorem drop_add_of_drop_eq {w r : List Char} (h : s.toList.drop i = w ++ r) :
    s.toList.drop (i + w.length) = r := by
  rw [← List.drop_drop, h, List.drop_left]

theorem length_le_of_drop_eq {w r : List Char} (h : s.toList.drop i = w ++ r) :
    w.length ≤ s.size := by
  have := congrArg List.length h
  simp only [List.length_drop, Array.length_toList, List.length_append] at this
  omega

theorem extract_of_drop_eq {w r : List Char} (h : s.toList.drop i = w ++ r) :
    (s.extract i (i + w.length)).toList = w := by
  rw [Array.toList_extract, List.extract_eq_take_drop, h, Nat.add_sub_cancel_left, List.take_left' rfl]

section Basic

variable {p q : Peg ρ α} {f : α → Peg ρ β} {a : α} {b : β}

theorem Parses.unique {a' : α} {j' : Nat} (h : Parses p s i a j) (h' : Parses p s i a' j') :
    a = a' ∧ j = j' := by
  obtain ⟨r, e⟩ := h ⟨i, 0, #[]⟩ rfl
  obtain ⟨r', e'⟩ := h' ⟨i, 0, #[]⟩ rfl
  rw [r] at r'
  exact ⟨Option.some.inj r', e.symm.trans e'⟩

theorem Parses.eq_of_apply {c : Cursor ρ} {a' : α} (h : Parses p s i a j) (hc : c.pos = i)
    (e : (p s c).1 = some a') : a = a' := by
  rw [(h c hc).1] at e
  exact Option.some.inj e

theorem Parses.not_fails (h : Parses p s i a j) (fails : Fails p s i) : False := by
  have := (h ⟨i, 0, #[]⟩ rfl).1
  rw [fails ⟨i, 0, #[]⟩ rfl] at this
  cases this

theorem bind_apply_of_some {c : Cursor ρ} (h : (p s c).1 = some a) :
    (p >>= f) s c = f a s (p s c).2 := by
  have e : p s c = (some a, (p s c).2) := Prod.ext h rfl
  simp only [bind]
  rw [e]

theorem bind_apply_of_none {c : Cursor ρ} (h : (p s c).1 = none) : ((p >>= f) s c).1 = none := by
  have e : p s c = (none, (p s c).2) := Prod.ext h rfl
  simp only [bind]
  rw [e]

theorem parses_pure : Parses (pure a : Peg ρ α) s i a i := fun _ hc => ⟨rfl, hc⟩

theorem Parses.bind (first : Parses p s i a j) (second : Parses (f a) s j b k) :
    Parses (p >>= f) s i b k := by
  intro c hc
  obtain ⟨hp, hpos⟩ := first c hc
  rw [bind_apply_of_some hp]
  exact second _ hpos

theorem Fails.bind (first : Fails p s i) : Fails (p >>= f) s i :=
  fun c hc => bind_apply_of_none (first c hc)

theorem Parses.bind_fails (first : Parses p s i a j) (second : Fails (f a) s j) :
    Fails (p >>= f) s i := by
  intro c hc
  obtain ⟨hp, hpos⟩ := first c hc
  rw [bind_apply_of_some hp]
  exact second _ hpos

theorem Parses.map {g : α → β} (h : Parses p s i a j) : Parses (g <$> p) s i (g a) j :=
  h.bind parses_pure

theorem Fails.map {g : α → β} (h : Fails p s i) : Fails (g <$> p) s i := Fails.bind h

theorem Parses.discard (h : Parses p s i a j) : Parses (discard p) s i () j := h.map

theorem Fails.discard (h : Fails p s i) : Fails (discard p) s i := h.map

theorem bind_assoc {g : β → Peg ρ γ} : (p >>= f) >>= g = p >>= fun a => f a >>= g := by
  funext s c
  simp only [bind]
  rcases p s c with ⟨_ | a, c'⟩ <;> rfl

theorem Parses.rule {r : ρ} (h : Parses p s i a j) : Parses (rule r p) s i a j := by
  intro c hc
  obtain ⟨hp, hpos⟩ := h c hc
  simp only [Peg.rule]
  split
  · rename_i a' c' e
    rw [e] at hp hpos
    exact ⟨hp, hpos⟩
  · rename_i c' e
    rw [e] at hp
    cases hp

theorem Fails.rule {r : ρ} (h : Fails p s i) : Fails (rule r p) s i := by
  intro c hc
  have hp := h c hc
  simp only [Peg.rule]
  split
  · rename_i a' c' e
    rw [e] at hp
    cases hp
  · rfl

theorem Parses.orElse_left (h : Parses p s i a j) : Parses (orElse p q) s i a j := by
  intro c hc
  obtain ⟨hp, hpos⟩ := h c hc
  simp only [Peg.orElse]
  split
  · rename_i a' c' e
    rw [e] at hp hpos
    exact ⟨hp, hpos⟩
  · rename_i c' e
    rw [e] at hp
    cases hp

theorem Parses.orElse_right (fails : Fails p s i) (h : Parses q s i a j) :
    Parses (orElse p q) s i a j := by
  intro c hc
  have hp := fails c hc
  simp only [Peg.orElse]
  split
  · rename_i a' c' e
    rw [e] at hp
    cases hp
  · exact h _ hc

theorem Fails.orElse (left : Fails p s i) (right : Fails q s i) : Fails (orElse p q) s i := by
  intro c hc
  have hp := left c hc
  simp only [Peg.orElse]
  split
  · rename_i a' c' e
    rw [e] at hp
    cases hp
  · exact right _ hc

theorem Parses.optional (h : Parses p s i a j) : Parses (optional p) s i (some a) j := by
  intro c hc
  obtain ⟨hp, hpos⟩ := h c hc
  simp only [Peg.optional]
  split
  · rename_i a' c' e
    rw [e] at hp hpos
    cases hp
    exact ⟨rfl, hpos⟩
  · rename_i c' e
    rw [e] at hp
    cases hp

theorem Fails.optional (h : Fails p s i) : Parses (optional p) s i none i := by
  intro c hc
  have hp := h c hc
  simp only [Peg.optional]
  split
  · rename_i a' c' e
    rw [e] at hp
    cases hp
  · exact ⟨rfl, hc⟩

end Basic

section Primitives

theorem parses_position : Parses (position : Peg ρ Nat) s i i i := fun _ hc => ⟨by rw [← hc]; rfl, hc⟩

theorem fails_fail : Fails (fail : Peg ρ α) s i := fun _ _ => rfl

theorem parses_atEnd : Parses (atEnd : Peg ρ Bool) s i (decide (s.size ≤ i)) i :=
  fun _ hc => ⟨by rw [← hc]; rfl, hc⟩

theorem parses_sliceFrom (start : Nat) :
    Parses (sliceFrom start : Peg ρ String) s i (String.ofList ((s.extract start i).toList)) i :=
  fun _ hc => ⟨by rw [← hc]; rfl, hc⟩

theorem parses_sliceFrom_read {w r : List Char} (h : s.toList.drop i = w ++ r) :
    Parses (sliceFrom i : Peg ρ String) s (i + w.length) (String.ofList w) (i + w.length) := by
  have read := parses_sliceFrom (ρ := ρ) (s := s) (i := i + w.length) i
  rwa [extract_of_drop_eq h] at read

theorem parses_char {f : Char → Bool} {x : Char} {r : List Char} (h : s.toList.drop i = x :: r)
    (ok : f x = true) : Parses (char f : Peg ρ Char) s i x (i + 1) := by
  intro c hc
  have at_i : s[c.pos]? = some x := by rw [getElem?_eq_head?_drop, hc, h]; rfl
  simp only [Peg.char, at_i, ok, if_true]
  simp [hc]

theorem fails_char {f : Char → Bool} (h : ∀ x ∈ (s.toList.drop i).head?, f x = false) :
    Fails (char f : Peg ρ Char) s i := by
  intro c hc
  simp only [Peg.char]
  rw [getElem?_eq_head?_drop, hc]
  cases e : (s.toList.drop i).head? with
  | none => rfl
  | some x => simp [h x (by simp [e])]

theorem parses_notNext {f : Char → Bool} (h : ∀ x ∈ (s.toList.drop i).head?, f x = false) :
    Parses (notNext f : Peg ρ Unit) s i () i := by
  intro c hc
  simp only [Peg.notNext]
  rw [getElem?_eq_head?_drop, hc]
  cases e : (s.toList.drop i).head? with
  | none => exact ⟨rfl, hc⟩
  | some x => simp [h x (by simp [e]), hc]

theorem fails_notNext {f : Char → Bool} {x : Char} {r : List Char} (h : s.toList.drop i = x :: r)
    (ok : f x = true) : Fails (notNext f : Peg ρ Unit) s i := by
  intro c hc
  have at_i : s[c.pos]? = some x := by rw [getElem?_eq_head?_drop, hc, h]; rfl
  simp [Peg.notNext, at_i, ok]

theorem text_check_iff (cs : List Char) (i : Nat) :
    ((List.range cs.length).all fun k => s[i + k]? == cs[k]?) = true ↔ cs <+: s.toList.drop i := by
  rw [List.prefix_iff_getElem?]
  simp only [List.all_eq_true, List.mem_range, beq_iff_eq]
  constructor
  · intro h k hk
    rw [List.getElem?_drop, Array.getElem?_toList, h k hk, List.getElem?_eq_getElem hk]
  · intro h k hk
    rw [← Array.getElem?_toList, ← List.getElem?_drop, h k hk, List.getElem?_eq_getElem hk]

theorem parses_text {t : String} {r : List Char} (h : s.toList.drop i = t.toList ++ r) :
    Parses (text t : Peg ρ Unit) s i () (i + t.toList.length) := by
  intro c hc
  have check := (text_check_iff (s := s) t.toList c.pos).mpr (by rw [hc, h]; exact List.prefix_append _ _)
  simp only [Peg.text, check, if_true]
  simp [hc]

theorem fails_text {t : String} (h : ¬ t.toList <+: s.toList.drop i) :
    Fails (text t : Peg ρ Unit) s i := by
  intro c hc
  have check : ((List.range t.toList.length).all fun k => s[c.pos + k]? == t.toList[k]?) = false := by
    rw [← Bool.not_eq_true, text_check_iff, hc]
    exact h
  simp only [Peg.text, check]
  rfl

end Primitives

section Repeat

variable {p : Peg ρ α}

/-- From `i`, `p` succeeds with `as` in turn, each time reading something, and then fails at `j`. -/
inductive Repeats (p : Peg ρ α) (s : Array Char) : Nat → List α → Nat → Prop
  | stop {i : Nat} : Fails p s i → Repeats p s i [] i
  | step {i k j : Nat} {a : α} {as : List α} : Parses p s i a k → i < k → Repeats p s k as j →
      Repeats p s i (a :: as) j

theorem Repeats.length_add_le {as : List α} (h : Repeats p s i as j) : as.length + i ≤ j := by
  induction h with
  | stop => simp
  | step _ lt _ ih => simp only [List.length_cons]; omega

theorem Repeats.repeatFor {as : List α} (h : Repeats p s i as j) {fuel : Nat}
    (enough : as.length < fuel) (c : Cursor ρ) (hc : c.pos = i) :
    (repeatFor p fuel s c).1 = as ∧ (repeatFor p fuel s c).2.pos = j := by
  induction h generalizing fuel c with
  | stop fails =>
    obtain ⟨fuel, rfl⟩ : ∃ n, fuel = n + 1 := ⟨fuel - 1, by omega⟩
    have hp := fails c hc
    simp only [Peg.repeatFor]
    split
    · rename_i a' c' e
      rw [e] at hp
      cases hp
    · exact ⟨rfl, hc⟩
  | step first _ _ ih =>
    obtain ⟨fuel, rfl⟩ : ∃ n, fuel = n + 1 := ⟨fuel - 1, by omega⟩
    obtain ⟨hp, hpos⟩ := first c hc
    simp only [Peg.repeatFor]
    split
    · rename_i a' c' e
      rw [e] at hp hpos
      cases hp
      obtain ⟨rest, restPos⟩ := ih (Nat.lt_of_succ_lt_succ enough) c' hpos
      exact ⟨by rw [rest], restPos⟩
    · rename_i c' e
      rw [e] at hp
      cases hp

theorem Repeats.many {as : List α} (h : Repeats p s i as j) (fits : as.length ≤ s.size) :
    Parses (many p) s i as j := by
  intro c hc
  obtain ⟨r, e⟩ := h.repeatFor (by omega : as.length < s.size + 1) c hc
  simp only [Peg.many]
  exact ⟨by rw [r], e⟩

end Repeat

section Yields

variable {p q : Peg ρ α} {f : α → Peg ρ β} {P : α → Prop} {Q : β → Prop}

theorem Yields.mono {P' : α → Prop} (h : Yields p s P) (imp : ∀ a, P a → P' a) : Yields p s P' :=
  fun c a ha => imp a (h c a ha)

theorem Parses.yields {a : α} (h : Parses p s i a j) (y : Yields p s P) : P a :=
  y ⟨i, 0, #[]⟩ a (by rw [(h ⟨i, 0, #[]⟩ rfl).1]; rfl)

theorem yields_true : Yields p s fun _ => True := fun _ _ _ => trivial

theorem yields_char {f : Char → Bool} : Yields (char f : Peg ρ Char) s fun x => f x = true := by
  intro c x hx
  simp only [Peg.char] at hx
  split at hx
  · rename_i y _
    split at hx
    · rename_i ok
      cases hx
      exact ok
    · cases hx
  · cases hx

theorem yields_pure {a : α} (h : P a) : Yields (pure a : Peg ρ α) s P := by
  intro c a' ha
  cases ha
  exact h

theorem Yields.bind (first : Yields p s P) (second : ∀ a, P a → Yields (f a) s Q) :
    Yields (p >>= f) s Q := by
  intro c b hb
  cases e : (p s c).1 with
  | none => rw [bind_apply_of_none e] at hb; cases hb
  | some a =>
    rw [bind_apply_of_some e] at hb
    exact second a (first c a (by rw [e]; rfl)) _ b hb

theorem Yields.bind_right (second : ∀ a, Yields (f a) s Q) : Yields (p >>= f) s Q :=
  yields_true.bind fun a _ => second a

theorem Yields.map {g : α → β} (h : Yields p s P) (imp : ∀ a, P a → Q (g a)) :
    Yields (g <$> p) s Q :=
  h.bind fun a ha => yields_pure (imp a ha)

theorem Yields.rule {r : ρ} (h : Yields p s P) : Yields (rule r p) s P := by
  intro c a ha
  simp only [Peg.rule] at ha
  split at ha
  · rename_i a' c' e
    exact h c a (by rw [e]; exact ha)
  · cases ha

theorem Yields.orElse (left : Yields p s P) (right : Yields q s P) : Yields (orElse p q) s P := by
  intro c a ha
  simp only [Peg.orElse] at ha
  split at ha
  · rename_i a' c' e
    exact left c a (by rw [e]; exact ha)
  · exact right _ a ha

theorem Yields.optional (h : Yields p s P) : Yields (optional p) s (fun o => ∀ a ∈ o, P a) := by
  intro c o ho
  simp only [Peg.optional] at ho
  split at ho
  · rename_i a' c' e
    cases ho
    intro a ha
    exact h c a (by rw [e]; exact ha)
  · cases ho
    intro a ha
    cases ha

theorem Yields.repeatFor (h : Yields p s P) (fuel : Nat) (c : Cursor ρ) :
    ∀ a ∈ (repeatFor p fuel s c).1, P a := by
  induction fuel generalizing c with
  | zero => simp [Peg.repeatFor]
  | succ fuel ih =>
    simp only [Peg.repeatFor]
    split
    · rename_i a' c' e
      intro a ha
      rcases List.mem_cons.mp ha with rfl | ha
      · exact h c a (by rw [e]; rfl)
      · exact ih c' a ha
    · simp

theorem Yields.many (h : Yields p s P) : Yields (many p) s (fun as => ∀ a ∈ as, P a) := by
  intro c as has
  simp only [Peg.many, Option.mem_def, Option.some.injEq] at has
  subst has
  exact h.repeatFor _ c

/-- Whatever `p` gives from position `i` satisfies `P`. -/
def YieldsAt (p : Peg ρ α) (s : Array Char) (i : Nat) (P : α → Prop) : Prop :=
  ∀ c : Cursor ρ, c.pos = i → ∀ a ∈ (p s c).1, P a

theorem Yields.at (h : Yields p s P) : YieldsAt p s i P := fun c _ => h c

theorem YieldsAt.map {g : α → β} (h : YieldsAt p s i P) (imp : ∀ a, P a → Q (g a)) :
    YieldsAt (g <$> p) s i Q := by
  intro c hc b hb
  cases e : (p s c).1 with
  | none =>
    rw [show (g <$> p) s c = (p >>= fun a => pure (g a)) s c from rfl, bind_apply_of_none e] at hb
    cases hb
  | some a =>
    rw [show (g <$> p) s c = (p >>= fun a => pure (g a)) s c from rfl, bind_apply_of_some e] at hb
    cases hb
    exact imp a (h c hc a (by rw [e]; rfl))

theorem YieldsAt.orElse (left : YieldsAt p s i P) (right : YieldsAt q s i P) :
    YieldsAt (orElse p q) s i P := by
  intro c hc a ha
  simp only [Peg.orElse] at ha
  split at ha
  · rename_i a' c' e
    exact left c hc a (by rw [e]; exact ha)
  · rename_i c' e
    exact right { c' with pos := c.pos } hc a ha

/-- Choice yields what its first branch yields, and what the second yields from wherever the first
failed. -/
theorem Yields.orElse_after (left : Yields p s P)
    (right : ∀ c : Cursor ρ, (p s c).1 = none → YieldsAt q s c.pos P) :
    Yields (Peg.orElse p q) s P := by
  intro c a ha
  simp only [Peg.orElse] at ha
  split at ha
  · rename_i a' c' e
    exact left c a (by rw [e]; exact ha)
  · rename_i c' e
    exact right c (by rw [e]) { c' with pos := c.pos } rfl a ha

theorem yields_of_forall (h : ∀ i, Fails p s i ∨ ∃ a j, Parses p s i a j ∧ P a) : Yields p s P := by
  intro c a ha
  rcases h c.pos with fails | ⟨a', j, parses, pa⟩
  · rw [fails c rfl] at ha
    cases ha
  · rw [(parses c rfl).1] at ha
    cases ha
    exact pa

end Yields

section Run

theorem Parses.run (h : Parses p s 0 a j) : Peg.run p s = .ok a := by
  have read := (h { pos := 0 } rfl).1
  unfold Peg.run
  split
  · rename_i a' c' hc
    rw [hc] at read
    cases read
    rfl
  · rename_i c' hc
    rw [hc] at read
    cases read

theorem Yields.run (h : Yields p s P) (e : Peg.run p s = .ok a) : P a := by
  unfold Peg.run at e
  split at e
  · rename_i a' c' hc
    cases e
    exact h { pos := 0 } a (by rw [hc]; rfl)
  · cases e

end Run

end BrilFlow.Text.Peg
