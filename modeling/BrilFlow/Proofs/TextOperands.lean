import BrilFlow.Proofs.TextTokens

/-! Literals and operands of Bril text: a literal's text is read back as its token, each earlier
alternative failing on it, and whatever the operand rule gives is well formed. -/
namespace BrilFlow

open Text Text.Peg Decimal

namespace Text

variable {s : Array Char} {i : Nat} {r : List Char}

section Classes

variable {x y : Char}

theorem isNameChar_of_isDigit (h : x.isDigit = true) : isNameChar x = true := by
  simp [isNameChar, Char.isAlphanum, h]

theorem isDigit_of_isNameChar_false (h : isNameChar x = false) : x.isDigit = false := by
  cases hd : x.isDigit
  · rfl
  · rw [isNameChar_of_isDigit hd] at h
    cases h

theorem ne_of_isNameChar (h : isNameChar x = false) (hy : isNameChar y = true) : x ≠ y := by
  rintro rfl
  rw [h] at hy
  cases hy

theorem isDigit_of_isAlpha (h : x.isAlpha = true) : x.isDigit = false := by
  simp only [Char.isAlpha, Char.isUpper, Char.isLower, Bool.or_eq_true, Bool.and_eq_true,
    decide_eq_true_eq] at h
  simp only [Char.isDigit, Bool.and_eq_false_iff, decide_eq_false_iff_not]
  simp only [ge_iff_le, UInt32.le_iff_toNat_le] at h ⊢
  simp at h ⊢
  omega

/-- An identifier starts with a letter or an underscore, which starts no literal, label or
function. -/
theorem ident_head (h : (x.isAlpha || x == '_') = true) :
    x ≠ '-' ∧ x.isDigit = false ∧ x ≠ '\'' ∧ x ≠ '.' ∧ x ≠ '@' := by
  rcases Bool.or_eq_true_iff.mp h with alpha | under
  · refine ⟨?_, isDigit_of_isAlpha alpha, ?_, ?_, ?_⟩ <;> rintro rfl <;> cases alpha
  · obtain rfl := beq_iff_eq.mp under
    decide

theorem not_prefix_of_ne {m : Char} (h : ∀ x ∈ (s.toList.drop i).head?, x ≠ m) :
    ¬ [m] <+: s.toList.drop i := by
  rintro ⟨u, hu⟩
  exact h m (by simp [← hu]) rfl

theorem not_prefix_of_head {m x : Char} {rest : List Char} (h : s.toList.drop i = x :: rest)
    (hx : x ≠ m) : ¬ [m] <+: s.toList.drop i :=
  not_prefix_of_ne (by rw [h]; exact forall_head?_cons hx)

end Classes

section Numbers

def minus (neg : Bool) : List Char := if neg then ['-'] else []

@[simp] theorem minus_false : minus false = [] := rfl

@[simp] theorem minus_true : minus true = ['-'] := rfl

def isDigits (d : List Char) : Bool := !d.isEmpty && d.all Char.isDigit

@[simp] theorem isDigits_nil : isDigits [] = false := rfl

@[simp] theorem isDigits_cons {x : Char} {d : List Char} :
    isDigits (x :: d) = (x.isDigit && d.all Char.isDigit) := by
  simp [isDigits]

/-- The texts the integer rule reads: `-?d+`. -/
def IntShape (w : List Char) : Prop := ∃ neg d, w = minus neg ++ d ∧ isDigits d

/-- The texts the float rule reads whole: `-?d+.d+`, then possibly `e`, a minus and digits. -/
def FloatShape (w : List Char) : Prop :=
  ∃ neg whole frac expo, w = minus neg ++ whole ++ '.' :: frac ++ expo ∧ isDigits whole ∧
    isDigits frac ∧ (expo = [] ∨ ∃ eneg d, expo = 'e' :: minus eneg ++ d ∧ isDigits d)

theorem parses_minus {neg : Bool} (h : s.toList.drop i = minus neg ++ r)
    (hr : ∀ x ∈ r.head?, x ≠ '-') :
    Parses (discard (optional (text "-")) : P Unit) s i () (i + (minus neg).length) := by
  cases neg
  · have none : ¬ "-".toList <+: s.toList.drop i := by
      rw [h]
      cases r with
      | nil => simp
      | cons x r => simpa [eq_comm] using hr x rfl
    exact (Fails.optional (fails_text none)).discard
  · exact (parses_text h).optional.discard

theorem parses_digits {d : List Char} (h : s.toList.drop i = d ++ r) (hd : isDigits d)
    (hr : ∀ x ∈ r.head?, x.isDigit = false) : Parses digits s i () (i + d.length) := by
  cases d with
  | nil => cases hd
  | cons x d =>
    simp only [isDigits, List.isEmpty_cons, Bool.not_false, List.all_cons, Bool.true_and,
      Bool.and_eq_true] at hd
    have run := parses_many_char (drop_add_of_drop_eq (w := [x]) h : s.toList.drop (i + 1) = d ++ r)
      hd.2 hr
    rw [List.length_cons, Nat.add_comm d.length 1, ← Nat.add_assoc]
    exact (parses_char h hd.1).discard.bind run.discard

theorem fails_digits (h : ∀ x ∈ (s.toList.drop i).head?, x.isDigit = false) : Fails digits s i :=
  (fails_char h).discard.bind

theorem digit_ne_minus {x : Char} (hx : x.isDigit = true) : x ≠ '-' := by
  rintro rfl
  cases hx

theorem parses_float {w : List Char} (shape : FloatShape w) (h : s.toList.drop i = w ++ r)
    (hr : ∀ x ∈ r.head?, isNameChar x = false) :
    Parses float s i (.float (String.ofList w)) (i + w.length) := by
  obtain ⟨neg, whole, frac, expo, rfl, hwhole, hfrac, hexpo⟩ := shape
  cases whole with
  | nil => cases hwhole
  | cons x whole =>
  have hx : x.isDigit = true := by simp_all
  set a := i + (minus neg).length
  set b := a + (x :: whole).length
  set c := b + 1
  set d := c + frac.length
  have at_sign : s.toList.drop i = minus neg ++ (x :: whole ++ ('.' :: (frac ++ (expo ++ r)))) := by
    simpa using h
  have at_whole : s.toList.drop a = x :: whole ++ ('.' :: (frac ++ (expo ++ r))) :=
    drop_add_of_drop_eq at_sign
  have at_point : s.toList.drop b = ".".toList ++ (frac ++ (expo ++ r)) := drop_add_of_drop_eq at_whole
  have at_frac : s.toList.drop c = frac ++ (expo ++ r) := drop_add_of_drop_eq at_point
  have at_expo : s.toList.drop d = expo ++ r := drop_add_of_drop_eq at_frac
  have sign : Parses _ s i () a := parses_minus at_sign (by simpa using digit_ne_minus hx)
  have intPart : Parses digits s a () b := parses_digits at_whole hwhole (by simp)
  have point : Parses (text "." : P Unit) s b () c := parses_text at_point
  have fracPart : Parses digits s c () d := by
    refine parses_digits at_frac hfrac ?_
    rcases hexpo with rfl | ⟨eneg, ds, rfl, hds⟩
    · simpa using fun y hy => isDigit_of_isNameChar_false (hr y hy)
    · simp
  -- the exponent's letter is a name character, so after the fraction no exponent is read
  -- exactly when none is written
  have expoPart : Parses (discard (optional do
        discard (char fun c => c == 'e' || c == 'E')
        discard (optional (char fun c => c == '+' || c == '-'))
        digits) : P Unit) s d () (d + expo.length) := by
    rcases hexpo with rfl | ⟨eneg, ds, rfl, hds⟩
    · refine (Fails.optional ?_).discard
      refine Fails.bind (Fails.discard (fails_char ?_))
      rw [at_expo]
      intro y hy
      have stop := hr y (by simpa using hy)
      simp [ne_of_isNameChar stop (by decide : isNameChar 'e'),
        ne_of_isNameChar stop (by decide : isNameChar 'E')]
    · cases ds with
      | nil => cases hds
      | cons y ds =>
      have hy : y.isDigit = true := by simp_all
      have at_letter : s.toList.drop d = ['e'] ++ (minus eneg ++ (y :: ds ++ r)) := by simpa using at_expo
      have at_esign := drop_add_of_drop_eq at_letter
      have at_digits := drop_add_of_drop_eq at_esign
      have letter := parses_char (ρ := Rule) (f := fun c => c == 'e' || c == 'E') at_letter (by decide)
      have esign : Parses (discard (optional (char fun c => c == '+' || c == '-')) : P Unit) s
          (d + 1) () (d + 1 + (minus eneg).length) := by
        cases eneg
        · refine (Fails.optional (fails_char ?_)).discard
          simp only [List.length_singleton, minus_false, List.nil_append] at at_esign
          simp [at_esign, digit_ne_minus hy]
          rintro rfl
          cases hy
        · exact (parses_char (by simpa using at_esign) (by decide)).optional.discard
      have expDigits := parses_digits at_digits hds fun z hz => isDigit_of_isNameChar_false (hr z hz)
      refine (Parses.optional (a := ()) ?_).discard
      have past : d + ('e' :: (minus eneg ++ y :: ds)).length =
          d + [ 'e' ].length + (minus eneg).length + (y :: ds).length := by
        simp only [List.length_cons, List.length_append, List.length_nil]
        omega
      rw [List.cons_append, past]
      exact letter.discard.bind (esign.bind expDigits)
  have slice := parses_sliceFrom_read (ρ := Rule) h
  have total : i + (minus neg ++ x :: whole ++ '.' :: frac ++ expo).length = d + expo.length := by
    simp only [List.length_append, List.length_cons, a, b, c, d]
    omega
  rw [total] at slice ⊢
  exact (parses_position.bind (sign.bind (intPart.bind (point.bind (fracPart.bind
    (expoPart.bind (slice.bind (f := fun t => pure (LiteralToken.float t)) parses_pure))))))).rule

theorem parses_int {w : List Char} (shape : IntShape w) (h : s.toList.drop i = w ++ r)
    (hr : ∀ x ∈ r.head?, isNameChar x = false) :
    Parses int s i (.int (String.ofList w)) (i + w.length) := by
  obtain ⟨neg, d, rfl, hd⟩ := shape
  cases d with
  | nil => cases hd
  | cons x d =>
  have hx : x.isDigit = true := by simp_all
  have at_sign : s.toList.drop i = minus neg ++ (x :: d ++ r) := by simpa using h
  have at_digits := drop_add_of_drop_eq at_sign
  have at_end := drop_add_of_drop_eq at_digits
  have sign := parses_minus at_sign (by simpa using digit_ne_minus hx)
  have digitsPart := parses_digits at_digits hd fun y hy => isDigit_of_isNameChar_false (hr y hy)
  have stop : Parses (notNext isNameChar : P Unit) s _ () _ := parses_notNext (by rw [at_end]; exact hr)
  have slice := parses_sliceFrom_read (ρ := Rule) h
  have total : i + (minus neg ++ x :: d).length = i + (minus neg).length + (x :: d).length := by
    simp only [List.length_append]
    omega
  rw [total] at slice ⊢
  exact (parses_position.bind (sign.bind (digitsPart.bind (stop.bind
    (slice.bind (f := fun t => pure (LiteralToken.int t)) parses_pure))))).rule

theorem fails_float_of_int {w : List Char} (shape : IntShape w) (h : s.toList.drop i = w ++ r)
    (hr : ∀ x ∈ r.head?, isNameChar x = false) : Fails float s i := by
  obtain ⟨neg, d, rfl, hd⟩ := shape
  cases d with
  | nil => cases hd
  | cons x d =>
  have hx : x.isDigit = true := by simp_all
  have at_sign : s.toList.drop i = minus neg ++ (x :: d ++ r) := by simpa using h
  have at_digits := drop_add_of_drop_eq at_sign
  have at_end := drop_add_of_drop_eq at_digits
  have sign := parses_minus at_sign (by simpa using digit_ne_minus hx)
  have digitsPart := parses_digits at_digits hd fun y hy => isDigit_of_isNameChar_false (hr y hy)
  have noPoint : ¬ ".".toList <+: s.toList.drop (i + (minus neg).length + (x :: d).length) := by
    rw [at_end]
    cases r with
    | nil => simp
    | cons y r => simpa [eq_comm] using ne_of_isNameChar (hr y rfl) (by decide : isNameChar '.')
  exact (parses_position.bind_fails (sign.bind_fails (digitsPart.bind_fails
    (fails_text noPoint).bind))).rule

theorem fails_float_of_head (h : ∀ x ∈ (s.toList.drop i).head?, x ≠ '-' ∧ x.isDigit = false) :
    Fails float s i := by
  have sign := parses_minus (show s.toList.drop i = minus false ++ s.toList.drop i from rfl)
    fun x hx => (h x hx).1
  exact (parses_position.bind_fails (sign.bind_fails
    (fails_digits fun x hx => (h x hx).2).bind)).rule

theorem fails_int_of_head (h : ∀ x ∈ (s.toList.drop i).head?, x ≠ '-' ∧ x.isDigit = false) :
    Fails int s i := by
  have sign := parses_minus (show s.toList.drop i = minus false ++ s.toList.drop i from rfl)
    fun x hx => (h x hx).1
  exact (parses_position.bind_fails (sign.bind_fails
    (fails_digits fun x hx => (h x hx).2).bind)).rule

theorem isDigits_toDigits (m : Nat) : isDigits (Nat.toDigits 10 m) := by
  have nonempty : Nat.toDigits 10 m ≠ [] := Nat.toDigits_ne_nil
  simpa [isDigits, nonempty] using fun c hc => isDigit_of_mem_toDigits hc

theorem intShape_toString (n : Int) : IntShape (toString n).toList := by
  cases n with
  | ofNat m => exact ⟨false, _, by simp [toString, Int.repr, Nat.toList_repr], isDigits_toDigits m⟩
  | negSucc m =>
    exact ⟨true, _, by simp [toString, Int.repr, Nat.toList_repr], isDigits_toDigits (m + 1)⟩

theorem magnitudeText_shape {bits : UInt64} (h : isNaN bits = false) :
    ∃ whole frac expo, (magnitudeText bits).toList = whole ++ '.' :: frac ++ expo ∧
      isDigits whole ∧ isDigits frac ∧ (expo = [] ∨ ∃ eneg d, expo = 'e' :: minus eneg ++ d ∧ isDigits d) := by
  unfold magnitudeText
  split
  · split
    · exact ⟨['0'], ['0'], [], rfl, rfl, rfl, .inl rfl⟩
    · cases binaryExponent bits with
      | ofNat n =>
        exact ⟨_, ['0'], [], by simp [exactText, Nat.toList_repr], isDigits_toDigits (significand bits * 2 ^ n),
          rfl, .inl rfl⟩
      | negSucc n =>
        exact ⟨_, ['0'], 'e' :: minus true ++ Nat.toDigits 10 (n + 1),
          by simp [exactText, Nat.toList_repr], isDigits_toDigits (significand bits * 5 ^ (n + 1)), rfl,
          .inr ⟨true, _, rfl, isDigits_toDigits _⟩⟩
  · rename_i infinite
    have fraction : fractionField bits = 0 := by simpa [isNaN, infinite] using h
    rw [if_pos fraction]
    exact ⟨['1'], ['0'], 'e' :: minus false ++ ['9', '9', '9'], rfl, rfl, rfl, .inr ⟨false, _, rfl, rfl⟩⟩

theorem floatShape_floatText {bits : UInt64} (h : isNaN bits = false) :
    FloatShape (floatText bits).toList := by
  obtain ⟨whole, frac, expo, text, hwhole, hfrac, hexpo⟩ := magnitudeText_shape h
  refine ⟨signBit bits, whole, frac, expo, ?_, hwhole, hfrac, hexpo⟩
  unfold floatText
  cases signBit bits <;> simp [text]

end Numbers

section Keywords

variable {w : List Char}

theorem continues_of_prefix {kw : String} (h : s.toList.drop i = w ++ r) (hw : w.all isNameChar)
    (hr : ∀ x ∈ r.head?, isNameChar x = false) (hkw : kw.toList.all isNameChar) (ne : w ≠ kw.toList)
    (pre : kw.toList <+: s.toList.drop i) :
    ∃ x r', s.toList.drop (i + kw.toList.length) = x :: r' ∧ isNameChar x = true := by
  obtain ⟨u, hu⟩ := pre
  rw [drop_add_of_drop_eq hu.symm]
  cases u with
  | nil =>
    have whole : kw.toList.takeWhile isNameChar = kw.toList := by
      simpa using takeWhile_of_all (r := []) hkw (by simp)
    have : w ++ r = kw.toList := by rw [← h, ← hu, List.append_nil]
    exact absurd (by rw [← takeWhile_of_all hw hr, this, whole]) ne
  | cons x u =>
    cases hx : isNameChar x
    · have := takeWhile_of_all hkw (r := x :: u) (by simpa using hx)
      rw [hu, h, takeWhile_of_all hw hr] at this
      exact absurd this ne
    · exact ⟨x, u, rfl, hx⟩

theorem parses_boolean (b : Bool) (h : s.toList.drop i = (if b then "true" else "false").toList ++ r)
    (hr : ∀ x ∈ r.head?, isNameChar x = false) :
    Parses boolean s i (.boolean (if b then "true" else "false"))
      (i + (if b then "true" else "false").toList.length) := by
  have keyword : Parses (orElse (text "true") (text "false") : P Unit) s i ()
      (i + (if b then "true" else "false").toList.length) := by
    cases b
    · exact Parses.orElse_right (fails_text (by rw [h]; simp)) (parses_text h)
    · exact (parses_text h).orElse_left
  have stop : Parses (notNext isNameChar : P Unit) s _ () _ :=
    parses_notNext (by rw [drop_add_of_drop_eq h]; exact hr)
  have slice := parses_sliceFrom_read (ρ := Rule) h
  rw [String.ofList_toList] at slice
  exact (parses_position.bind (keyword.bind (stop.bind
    (slice.bind (f := fun t => pure (LiteralToken.boolean t)) parses_pure)))).rule

theorem fails_boolean (h : ∀ x ∈ (s.toList.drop i).head?, x ≠ 't' ∧ x ≠ 'f') : Fails boolean s i := by
  have notTrue : ¬ "true".toList <+: s.toList.drop i := by
    intro pre
    obtain ⟨u, hu⟩ := pre
    exact (h 't' (by simp [← hu])).1 rfl
  have notFalse : ¬ "false".toList <+: s.toList.drop i := by
    intro pre
    obtain ⟨u, hu⟩ := pre
    exact (h 'f' (by simp [← hu])).2 rfl
  exact (parses_position.bind_fails (Fails.orElse (fails_text notTrue) (fails_text notFalse)).bind).rule

theorem fails_boolean_of_word (h : s.toList.drop i = w ++ r) (hw : w.all isNameChar)
    (hr : ∀ x ∈ r.head?, isNameChar x = false) (notTrue : w ≠ "true".toList)
    (notFalse : w ≠ "false".toList) : Fails boolean s i := by
  have goesOn : ∀ kw : String, kw.toList.all isNameChar → w ≠ kw.toList → kw.toList <+: s.toList.drop i →
      Fails (notNext isNameChar : P Unit) s (i + kw.toList.length) := by
    intro kw hkw ne pre
    obtain ⟨x, r', at_end, name⟩ := continues_of_prefix h hw hr hkw ne pre
    exact fails_notNext at_end name
  refine (parses_position.bind_fails ?_).rule
  by_cases pT : "true".toList <+: s.toList.drop i
  · obtain ⟨u, hu⟩ := pT
    exact (parses_text hu.symm).orElse_left.bind_fails (goesOn "true" (by decide) notTrue ⟨u, hu⟩).bind
  · by_cases pF : "false".toList <+: s.toList.drop i
    · obtain ⟨u, hu⟩ := pF
      exact (Parses.orElse_right (fails_text pT) (parses_text hu.symm)).bind_fails
        (goesOn "false" (by decide) notFalse ⟨u, hu⟩).bind
    · exact (Fails.orElse (fails_text pT) (fails_text pF)).bind

end Keywords

section Characters

variable {c : Char}

theorem parses_charLit (hc : c ≠ '\'') (h : s.toList.drop i = ("'" ++ c.toString ++ "'").toList ++ r) :
    Parses charLit s i (.char ("'" ++ c.toString ++ "'") c) (i + 3) := by
  have at_open : s.toList.drop i = "'".toList ++ (c :: '\'' :: r) := by simpa using h
  have at_body : s.toList.drop (i + 1) = c :: ('\'' :: r) := drop_add_of_drop_eq at_open
  have at_close : s.toList.drop (i + 2) = "'".toList ++ r := drop_add_of_drop_eq (w := [c]) at_body
  have body : Parses charBody s (i + 1) c (i + 2) := (parses_char at_body (by simpa using hc)).rule
  have slice := parses_sliceFrom_read (ρ := Rule) h
  have three : ("'" ++ c.toString ++ "'").toList.length = 3 := by simp
  rw [String.ofList_toList, three] at slice
  exact (parses_position.bind ((parses_text at_open).bind (body.bind ((parses_text at_close).bind
    (slice.bind (f := fun t => pure (LiteralToken.char t c)) parses_pure))))).rule

theorem fails_charLit (h : ∀ x ∈ (s.toList.drop i).head?, x ≠ '\'') : Fails charLit s i := by
  have noQuote : ¬ "'".toList <+: s.toList.drop i := by
    intro pre
    obtain ⟨u, hu⟩ := pre
    exact h '\'' (by simp [← hu]) rfl
  exact (parses_position.bind_fails (fails_text noQuote).bind).rule

end Characters

section Operands

/-- Literal tokens the reader gives: a character literal never holds the quote. -/
def LiteralToken.Wellformed : LiteralToken → Prop
  | .char _ c => c ≠ '\''
  | _ => True

def Operand.Wellformed : Operand → Prop
  | .literal tok => tok.Wellformed
  | .label l => isName l
  | .func f => isName f
  | .ident a => isIdent a ∧ a ≠ "true" ∧ a ≠ "false"

/-- Operands as the text of a program writes them. -/
def Operand.Writable : Operand → Prop
  | .literal tok => ∃ v : Literal, v.Textual ∧ tok = v.token
  | .label l => isName l
  | .func f => isName f
  | .ident a => isIdent a ∧ a ≠ "true" ∧ a ≠ "false"

variable {x : Char} {rest : List Char}

theorem fails_literal (h : s.toList.drop i = x :: rest) (num : x ≠ '-' ∧ x.isDigit = false)
    (bool : Fails boolean s i) (quote : x ≠ '\'') :
    Fails (orElse float (orElse int (orElse boolean charLit))) s i := by
  have head : ∀ y ∈ (s.toList.drop i).head?, y ≠ '-' ∧ y.isDigit = false := by
    simpa [h] using num
  exact (fails_float_of_head head).orElse ((fails_int_of_head head).orElse
    (bool.orElse (fails_charLit (by simpa [h] using quote))))

theorem parses_keyword (b : Bool) (h : s.toList.drop i = (if b then "true" else "false").toList ++ r)
    (hr : ∀ x ∈ r.head?, isNameChar x = false) :
    Parses (orElse float (orElse int (orElse boolean charLit))) s i
      (.boolean (if b then "true" else "false")) (i + (if b then "true" else "false").toList.length) := by
  have head : ∀ y ∈ (s.toList.drop i).head?, y ≠ '-' ∧ y.isDigit = false := by
    cases b <;> simp [h]
  exact Parses.orElse_right (fails_float_of_head head) (Parses.orElse_right (fails_int_of_head head)
    (parses_boolean b h hr).orElse_left)

/-- The text of a literal a program holds is read back as the literal's token. -/
theorem parses_literal {v : Literal} (hv : v.Textual) (h : s.toList.drop i = v.token.text.toList ++ r)
    (hr : ∀ x ∈ r.head?, isNameChar x = false) :
    Parses (orElse float (orElse int (orElse boolean charLit))) s i v.token
      (i + v.token.text.toList.length) := by
  cases v with
  | bool b => exact parses_keyword b h hr
  | int n =>
    have read := parses_int (intShape_toString n) h hr
    rw [String.ofList_toList] at read
    exact Parses.orElse_right (fails_float_of_int (intShape_toString n) h hr) read.orElse_left
  | float bits =>
    have read := parses_float (floatShape_floatText hv) h hr
    rw [String.ofList_toList] at read
    exact read.orElse_left
  | char c =>
    have at_quote : s.toList.drop i = '\'' :: (c :: '\'' :: r) := by
      simpa [Literal.token, LiteralToken.text] using h
    have head : ∀ y ∈ (s.toList.drop i).head?, y ≠ '-' ∧ y.isDigit = false := by simp [at_quote]
    have three : (Literal.char c).token.text.toList.length = 3 := by
      simp [Literal.token, LiteralToken.text]
    rw [three]
    exact Parses.orElse_right (fails_float_of_head head) (Parses.orElse_right (fails_int_of_head head)
      (Parses.orElse_right (fails_boolean (by simp [at_quote])) (parses_charLit hv h)))

theorem isIdent_all {a : String} (h : isIdent a) : a.toList.all isNameChar := by
  unfold isIdent isWord at h
  split at h
  · rename_i c cs e
    simp only [Bool.and_eq_true, Bool.or_eq_true] at h
    rw [e, List.all_cons, h.2, Bool.and_true]
    rcases h.1 with alpha | under
    · simp [isNameChar, Char.isAlphanum, alpha]
    · simp [isNameChar, under]
  · cases h

theorem parses_operand {o : Operand} (ho : o.Writable) (h : s.toList.drop i = o.text.toList ++ r)
    (hr : ∀ x ∈ r.head?, isNameChar x = false) : Parses operand s i o (i + o.text.toList.length) := by
  cases o with
  | literal tok =>
    obtain ⟨v, hv, rfl⟩ := ho
    exact (parses_literal hv h hr).map.orElse_left
  | label l =>
    have at_mark : s.toList.drop i = '.' :: (l.toList ++ r) := by simpa [Operand.text] using h
    have noLiteral := fails_literal at_mark (by decide) (fails_boolean (by simp [at_mark])) (by decide)
    have read := parses_marked (R := .labelRef) (m := ".") (by simpa [Operand.text] using h) ho hr
    have past : i + (Operand.label l).text.toList.length = i + ".".toList.length + l.toList.length := by
      simp only [Operand.text, String.toList_append, List.length_append]
      omega
    rw [past]
    exact Parses.orElse_right noLiteral.map read.map.orElse_left
  | func f =>
    have at_mark : s.toList.drop i = '@' :: (f.toList ++ r) := by simpa [Operand.text] using h
    have noLiteral := fails_literal at_mark (by decide) (fails_boolean (by simp [at_mark])) (by decide)
    have noLabel := fails_marked (R := .labelRef) (m := ".") (not_prefix_of_head at_mark (m := '.') (by decide))
    have read := parses_marked (R := .funcRef) (m := "@") (by simpa [Operand.text] using h) ho hr
    have past : i + (Operand.func f).text.toList.length = i + "@".toList.length + f.toList.length := by
      simp only [Operand.text, String.toList_append, List.length_append]
      omega
    rw [past]
    exact Parses.orElse_right noLiteral.map (Parses.orElse_right noLabel.map read.map.orElse_left)
  | ident a =>
    obtain ⟨shape, notTrue, notFalse⟩ := ho
    obtain ⟨c, cs, e, hc⟩ := isWord_head shape
    have first := ident_head hc
    have at_head : s.toList.drop i = c :: (cs ++ r) := by simpa [Operand.text, e] using h
    have noBool := fails_boolean_of_word h (isIdent_all shape) hr
      (fun t => notTrue (String.toList_inj.mp t)) (fun t => notFalse (String.toList_inj.mp t))
    have noLiteral := fails_literal at_head ⟨first.1, first.2.1⟩ noBool first.2.2.1
    have noLabel := fails_marked (R := .labelRef) (m := ".") (not_prefix_of_head at_head first.2.2.2.1)
    have noFunc := fails_marked (R := .funcRef) (m := "@") (not_prefix_of_head at_head first.2.2.2.2)
    exact Parses.orElse_right noLiteral.map (Parses.orElse_right noLabel.map
      (Parses.orElse_right noFunc.map (parses_ident h shape hr).map))

theorem fails_operand (h : s.toList.drop i = ';' :: rest) : Fails operand s i := by
  have noLiteral := fails_literal h (by decide) (fails_boolean (by simp [h])) (by decide)
  have noLabel := fails_marked (R := .labelRef) (m := ".") (not_prefix_of_head h (m := '.') (by decide))
  have noFunc := fails_marked (R := .funcRef) (m := "@") (not_prefix_of_head h (m := '@') (by decide))
  have noIdent := fails_ident (s := s) (i := i) (by simp [h])
  exact noLiteral.map.orElse (noLabel.map.orElse (noFunc.map.orElse noIdent.map))

theorem yields_literal :
    Yields (orElse float (orElse int (orElse boolean charLit))) s LiteralToken.Wellformed := by
  -- only a character literal has a condition, and its body is read by `charBody`
  have float : Yields float s LiteralToken.Wellformed :=
    (Yields.bind_right fun _ => .bind_right fun _ => .bind_right fun _ => .bind_right fun _ =>
      .bind_right fun _ => .bind_right fun _ => .bind_right fun _ => yields_pure trivial).rule
  have int : Yields int s LiteralToken.Wellformed :=
    (Yields.bind_right fun _ => .bind_right fun _ => .bind_right fun _ => .bind_right fun _ =>
      .bind_right fun _ => yields_pure trivial).rule
  have boolean : Yields boolean s LiteralToken.Wellformed :=
    (Yields.bind_right fun _ => .bind_right fun _ => .bind_right fun _ =>
      .bind_right fun _ => yields_pure trivial).rule
  have body : Yields charBody s fun c => c ≠ '\'' := yields_char.rule.mono fun _ h => by simpa using h
  have char : Yields charLit s LiteralToken.Wellformed :=
    Yields.rule (Yields.bind_right fun _ => .bind_right fun _ => body.bind fun _ ok => .bind_right fun _ =>
      .bind_right fun _ => yields_pure ok)
  exact float.orElse (int.orElse (boolean.orElse char))

/-- Whatever the operand rule gives is well formed: in particular an identifier it gives is
never `true` or `false`, which the boolean rule reads first. -/
theorem yields_operand : Yields operand s Operand.Wellformed := by
  refine Yields.orElse_after (yields_literal.map fun _ h => h) fun c noLiteral => ?_
  refine (yields_marked.map fun _ h => h).at.orElse ((yields_marked.map fun _ h => h).at.orElse ?_)
  refine YieldsAt.map (P := fun a => isIdent a ∧ a ≠ "true" ∧ a ≠ "false") ?_ fun _ h => h
  intro c' hc' a ha
  obtain ⟨r, h, shape, stop⟩ := ident_read ha
  refine ⟨shape, ?_, ?_⟩ <;> rintro rfl
  · have := (parses_keyword true (by rw [← hc']; exact h) stop).map (g := Operand.literal) c rfl
    rw [noLiteral] at this
    cases this.1
  · have := (parses_keyword false (by rw [← hc']; exact h) stop).map (g := Operand.literal) c rfl
    rw [noLiteral] at this
    cases this.1

end Operands

end Text

end BrilFlow
