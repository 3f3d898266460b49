import BrilFlow.Proofs.PegSpec
import BrilFlow.Proofs.TextForm

/-! The tokens of Bril text from a position: blanks, runs and words, and what each token rule reads,
gives and where it stops, or that it fails. -/
namespace BrilFlow.Text

open Peg

variable {s : Array Char} {i j : Nat}

section Blanks

/-- Characters that `skip` passes over outside a comment. -/
def isTrivia (c : Char) : Bool := c == ' ' || c == '\t' || c == '\n' || c == '\r' || c == '#'

theorem parses_skip : Parses skip s i () (skipTrivia s i false) := fun _ hc => ⟨rfl, by rw [← hc]; rfl⟩

theorem skipTrivia_stop (h : ∀ x ∈ (s.toList.drop i).head?, isTrivia x = false) :
    skipTrivia s i false = i := by
  rw [skipTrivia]
  split
  · rename_i lt
    have at_i : (s.toList.drop i).head? = some s[i] := by
      rw [← getElem?_eq_head?_drop, Array.getElem?_eq_getElem lt]
    have := h s[i] (by rw [at_i]; rfl)
    simp only [isTrivia, Bool.or_eq_false_iff, beq_eq_false_iff_ne] at this
    simp [this]
  · rfl

theorem skipTrivia_blank {x : Char} {r : List Char} (h : s.toList.drop i = x :: r)
    (blank : x = ' ' ∨ x = '\n') : skipTrivia s i false = skipTrivia s (i + 1) false := by
  have at_i : s[i]? = some x := by rw [getElem?_eq_head?_drop, h]; rfl
  have lt : i < s.size := by
    rcases Nat.lt_or_ge i s.size with lt | ge
    · exact lt
    · rw [Array.getElem?_eq_none ge] at at_i; cases at_i
  have x_eq : s[i] = x := by rw [Array.getElem?_eq_getElem lt] at at_i; exact Option.some.inj at_i
  rw [skipTrivia, dif_pos lt]
  rcases blank with rfl | rfl <;> simp [x_eq]

theorem skipTrivia_blanks {gap r : List Char} (h : s.toList.drop i = gap ++ r)
    (blank : ∀ x ∈ gap, x = ' ' ∨ x = '\n') :
    skipTrivia s i false = skipTrivia s (i + gap.length) false := by
  induction gap generalizing i with
  | nil => rfl
  | cons x gap ih =>
    rw [skipTrivia_blank (r := gap ++ r) h (blank x List.mem_cons_self)]
    rw [ih (by rw [← List.drop_drop, h]; rfl) fun y hy => blank y (List.mem_cons_of_mem x hy)]
    simp only [List.length_cons]
    congr 1
    omega

theorem skipTrivia_spec (b : Bool) :
    ∀ x ∈ (s.toList.drop (skipTrivia s i b)).head?, isTrivia x = false := by
  -- every step either moves on, which the induction carries, or stops at a non-blank
  fun_induction skipTrivia s i b with
  | case1 _ _ _ _ _ ih => exact ih
  | case2 _ _ _ _ ih => exact ih
  | case3 _ _ _ _ _ _ _ ih => exact ih
  | case4 _ _ _ _ _ _ _ _ ih => exact ih
  | case5 pos _ lt c newline _ blank hash =>
    intro x hx
    have at_pos : (s.toList.drop pos).head? = some s[pos] := by
      rw [← getElem?_eq_head?_drop, Array.getElem?_eq_getElem lt]
    rw [at_pos] at hx
    cases hx
    simp only [Bool.or_eq_true, beq_iff_eq, not_or] at newline blank
    simp only [beq_iff_eq] at hash
    simp only [isTrivia, Bool.or_eq_false_iff, beq_eq_false_iff_ne]
    exact ⟨⟨⟨⟨blank.1, blank.2⟩, newline.1⟩, newline.2⟩, hash⟩
  | case6 pos _ ge =>
    intro x hx
    rw [← getElem?_eq_head?_drop, Array.getElem?_eq_none (by omega)] at hx
    cases hx

theorem le_skipTrivia (b : Bool) : i ≤ skipTrivia s i b := by
  fun_induction skipTrivia s i b <;> omega

theorem skipTrivia_idem : skipTrivia s (skipTrivia s i false) false = skipTrivia s i false :=
  skipTrivia_stop (skipTrivia_spec false)

end Blanks

section Runs

variable {f : Char → Bool} {w r : List Char}

theorem takeWhile_of_all (hw : w.all f) (hr : ∀ x ∈ r.head?, f x = false) :
    (w ++ r).takeWhile f = w := by
  rw [List.takeWhile_append_of_pos (by simpa using hw)]
  cases r with
  | nil => simp
  | cons x r => simp [hr x rfl]

theorem repeats_char (h : s.toList.drop i = w ++ r) (hw : w.all f)
    (hr : ∀ x ∈ r.head?, f x = false) : Repeats (char f : P Char) s i w (i + w.length) := by
  induction w generalizing i with
  | nil => exact .stop (fails_char (by simpa [h] using hr))
  | cons x w ih =>
    simp only [List.all_cons, Bool.and_eq_true] at hw
    have rest := ih (drop_add_of_drop_eq (w := [x]) h : s.toList.drop (i + 1) = w ++ r) hw.2
    have past : i + (x :: w).length = i + 1 + w.length := by simp only [List.length_cons]; omega
    rw [past]
    exact .step (parses_char h hw.1) (by omega) rest

theorem parses_many_char (h : s.toList.drop i = w ++ r) (hw : w.all f)
    (hr : ∀ x ∈ r.head?, f x = false) : Parses (many (char f) : P (List Char)) s i w (i + w.length) :=
  (repeats_char h hw hr).many (length_le_of_drop_eq h)

end Runs

section Words

variable {first rest : Char → Bool} {t : String} {r : List Char}

/-- A character of one class and then a run of another, read as text: identifiers, opcodes,
type names and names are such words. -/
def word (first rest : Char → Bool) : P String := do
  let start ← position
  discard (char first)
  discard (many (char rest))
  sliceFrom start

theorem labelName_eq : labelName = rule .labelName (word isNameChar isNameChar) := by
  simp only [labelName, run1, word, bind_assoc]

theorem isWord_head (h : isWord first rest t) : ∃ c cs, t.toList = c :: cs ∧ first c = true := by
  unfold isWord at h
  split at h
  · rename_i c cs e
    exact ⟨c, cs, e, (Bool.and_eq_true_iff.mp h).1⟩
  · cases h

theorem parses_word (h : s.toList.drop i = t.toList ++ r) (ht : isWord first rest t)
    (hr : ∀ x ∈ r.head?, rest x = false) : Parses (word first rest) s i t (i + t.toList.length) := by
  unfold isWord at ht
  split at ht
  · rename_i c cs e
    simp only [Bool.and_eq_true] at ht
    have hc : s.toList.drop i = c :: (cs ++ r) := by rw [h, e]; rfl
    have run := parses_many_char (drop_add_of_drop_eq (w := [c]) hc : s.toList.drop (i + 1) = cs ++ r)
      ht.2 hr
    have slice := parses_sliceFrom_read (ρ := Rule) h
    have past : i + (c :: cs).length = i + 1 + cs.length := by simp only [List.length_cons]; omega
    rw [String.ofList_toList, e, past] at slice
    rw [e, past]
    exact parses_position.bind ((parses_char hc ht.1).discard.bind (run.discard.bind slice))
  · cases ht

theorem fails_word (h : ∀ x ∈ (s.toList.drop i).head?, first x = false) :
    Fails (word first rest) s i :=
  parses_position.bind_fails (fails_char h).discard.bind

/-- At any position a word either reads the longest text of its shape there, or fails. -/
theorem word_read_or_fails (i : Nat) :
    (∃ t r, s.toList.drop i = t.toList ++ r ∧ isWord first rest t ∧ (∀ x ∈ r.head?, rest x = false) ∧
      Parses (word first rest) s i t (i + t.toList.length)) ∨ Fails (word first rest) s i := by
  cases e : s.toList.drop i with
  | nil => exact .inr (fails_word (by simp [e]))
  | cons x r =>
    cases hx : first x
    · exact .inr (fails_word (by simp [e, hx]))
    · have split : x :: r = (String.ofList (x :: r.takeWhile rest)).toList ++ r.dropWhile rest := by
        simp
      have shape : isWord first rest (String.ofList (x :: r.takeWhile rest)) := by
        simp [isWord, hx]
      have stop : ∀ y ∈ (r.dropWhile rest).head?, rest y = false := by
        intro y hy
        have := List.head?_dropWhile_not rest r
        rw [hy] at this
        exact this
      exact .inl ⟨_, _, split, shape, stop, parses_word (e.trans split) shape stop⟩

theorem yields_word : Yields (word first rest) s fun t => isWord first rest t :=
  yields_of_forall fun i => (word_read_or_fails i).elim
    (fun ⟨t, _, _, shape, _, read⟩ => .inr ⟨t, _, read, shape⟩) .inl

end Words

section Names

variable {t : String} {r : List Char}

theorem parses_ident (h : s.toList.drop i = t.toList ++ r) (ht : isIdent t)
    (hr : ∀ x ∈ r.head?, isNameChar x = false) : Parses ident s i t (i + t.toList.length) :=
  (parses_word h ht hr).rule

theorem parses_dest (h : s.toList.drop i = t.toList ++ r) (ht : isIdent t)
    (hr : ∀ x ∈ r.head?, isNameChar x = false) : Parses dest s i t (i + t.toList.length) :=
  (parses_word h ht hr).rule

theorem parses_opcode (h : s.toList.drop i = t.toList ++ r) (ht : isOpcode t)
    (hr : ∀ x ∈ r.head?, isNameChar x = false) : Parses opcode s i t (i + t.toList.length) :=
  (parses_word h ht hr).rule

theorem parses_tyName (h : s.toList.drop i = t.toList ++ r) (ht : isTypeName t)
    (hr : ∀ x ∈ r.head?, (x.isAlphanum || x == '_') = false) :
    Parses tyName s i t (i + t.toList.length) :=
  (parses_word h ht hr).rule

theorem fails_ident (h : ∀ x ∈ (s.toList.drop i).head?, (x.isAlpha || x == '_') = false) :
    Fails ident s i :=
  (fails_word h).rule

theorem fails_dest (h : ∀ x ∈ (s.toList.drop i).head?, (x.isAlpha || x == '_') = false) :
    Fails dest s i :=
  (fails_word h).rule

theorem fails_opcode (h : ∀ x ∈ (s.toList.drop i).head?, x.isAlpha = false) : Fails opcode s i :=
  (fails_word h).rule

theorem yields_ident : Yields ident s fun t => isIdent t := yields_word.rule

theorem yields_dest : Yields dest s fun t => isIdent t := yields_word.rule

theorem yields_opcode : Yields opcode s fun t => isOpcode t := yields_word.rule

theorem yields_tyName : Yields tyName s fun t => isTypeName t := yields_word.rule

/-- What an identifier read from a cursor is: a word of its shape that no name character
continues. -/
theorem ident_read {c : Cursor Rule} (e : (ident s c).1 = some t) :
    ∃ r, s.toList.drop c.pos = t.toList ++ r ∧ isIdent t ∧ ∀ x ∈ r.head?, isNameChar x = false := by
  rcases (word_read_or_fails c.pos : _ ∨ Fails (word (fun c => c.isAlpha || c == '_') isNameChar) s c.pos) with ⟨t', r, h, shape, stop, read⟩ | fails
  · obtain rfl := read.rule.eq_of_apply rfl e
    exact ⟨r, h, shape, stop⟩
  · have none : (ident s c).1 = none := fails.rule c rfl
    rw [none] at e
    cases e

variable {R : Rule} {m : String}

theorem parses_marked (h : s.toList.drop i = m.toList ++ t.toList ++ r) (ht : isName t)
    (hr : ∀ x ∈ r.head?, isNameChar x = false) :
    Parses (rule R (text m >>= fun _ => labelName)) s i t (i + m.toList.length + t.toList.length) := by
  rw [List.append_assoc] at h
  have name := parses_word (drop_add_of_drop_eq h) ht hr
  exact ((parses_text h).bind (labelName_eq ▸ name.rule)).rule

theorem fails_marked (h : ¬ m.toList <+: s.toList.drop i) :
    Fails (rule R (text m >>= fun _ => labelName)) s i :=
  (fails_text h).bind.rule

theorem yields_marked : Yields (rule R (text m >>= fun _ => labelName)) s fun t => isName t :=
  (yields_true.bind fun _ _ => labelName_eq ▸ yields_word.rule).rule

end Names

end BrilFlow.Text
