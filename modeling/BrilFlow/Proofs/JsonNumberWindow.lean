import BrilFlow.Proofs.JsonValues

/-! A number is read from its own bytes: what the number reader reads from a text holding only the
number it reads wherever the number stands, so a float whose text reads back alone reads back in
place. -/
namespace BrilFlow.Decimal

def NumberChar (c : Char) : Prop := c.isDigit = true ∨ c = '.' ∨ c = 'e' ∨ c = '+' ∨ c = '-'

theorem numberChar_zero : NumberChar '0' := .inl rfl

theorem NumberChar.toNat_lt {x : Char} (h : NumberChar x) : x.toNat < 128 := by
  rcases h with digit | rfl | rfl | rfl | rfl
  · simp only [Char.isDigit, Bool.and_eq_true, decide_eq_true_eq] at digit
    exact Nat.lt_of_le_of_lt digit.2 (by decide)
  all_goals decide

theorem NumberChar.not_blank {x : Char} (h : NumberChar x) :
    Json.isBlank (UInt8.ofNat x.toNat) = false := by
  rcases h with digit | rfl | rfl | rfl | rfl
  · exact Json.isBlank_of_isDigit (Json.isDigit_ofNat digit)
  all_goals decide

theorem toDigits_cons (n : Nat) :
    ∃ c cs, Nat.toDigits 10 n = c :: cs ∧ ∀ x ∈ c :: cs, x.isDigit = true := by
  obtain ⟨c, cs, eq⟩ := List.exists_cons_of_ne_nil (Nat.toDigits_ne_nil (n := n) (b := 10))
  exact ⟨c, cs, eq, fun x hx => Nat.isDigit_of_mem_toDigits (by omega) (by omega) (eq ▸ hx)⟩

theorem numberChar_of_mem_intRepr {i : Int} {c : Char} (h : c ∈ (toString i).toList) :
    NumberChar c := by
  cases i with
  | ofNat m =>
    simp only [toString, Int.repr, Nat.toList_repr] at h
    exact .inl (Nat.isDigit_of_mem_toDigits (by omega) (by omega) h)
  | negSucc m =>
    simp only [toString, Int.repr, String.toList_append, Nat.toList_repr, List.mem_append] at h
    rcases h with minus | digit
    · simp at minus
      exact .inr (.inr (.inr (.inr minus)))
    · exact .inl (Nat.isDigit_of_mem_toDigits (by omega) (by omega) digit)

theorem FloatLayout.body_chars (l : FloatLayout) (d : Digits) :
    ∃ c rest, (l.body d).toList = c :: rest ∧ c.isDigit = true ∧ ∀ x ∈ rest, NumberChar x := by
  obtain ⟨c, cs, eq, digits⟩ := toDigits_cons d.mantissa
  have tail : ∀ x ∈ cs, NumberChar x := fun x hx => .inl (digits x (List.mem_cons_of_mem c hx))
  have first : c.isDigit = true := digits c List.mem_cons_self
  have repr : d.mantissa.repr.toList = c :: cs := by rw [Nat.toList_repr, eq]
  have point : ".".toList = ['.'] := rfl
  have zeroPoint : "0.".toList = ['0', '.'] := rfl
  unfold FloatLayout.body
  simp only [String.length, repr, zeros]
  split
  · split
    · -- the digits, then zeros, then perhaps `.0`
      simp only [String.toList_append, String.toList_ofList, repr, List.cons_append]
      refine ⟨c, _, rfl, first, ?_⟩
      simp only [List.mem_append, List.mem_replicate]
      rintro x ((hx | ⟨-, rfl⟩) | hx)
      · exact tail x hx
      · exact numberChar_zero
      · split at hx
        · simp at hx
          rcases hx with rfl | rfl
          · exact .inr (.inl rfl)
          · exact numberChar_zero
        · simp at hx
    · split
      · -- the point inside the digits
        obtain ⟨m, hm⟩ : ∃ m, ((c :: cs).length + d.exponent).toNat = m + 1 :=
          ⟨((c :: cs).length + d.exponent).toNat - 1, by omega⟩
        simp only [String.toList_append, String.toList_ofList, hm, List.take_succ_cons,
          List.cons_append, point]
        refine ⟨c, _, rfl, first, ?_⟩
        simp only [List.mem_append, List.mem_singleton]
        rintro x ((hx | rfl) | hx)
        · exact tail x (List.mem_of_mem_take hx)
        · exact .inr (.inl rfl)
        · exact .inl (digits x (List.mem_of_mem_drop hx))
      · -- zeros after the point, then the digits
        simp only [String.toList_append, String.toList_ofList, repr, zeroPoint, List.cons_append]
        refine ⟨'0', _, rfl, rfl, ?_⟩
        simp only [List.mem_append, List.mem_cons, List.mem_replicate]
        rintro x (rfl | hx | hx)
        · exact .inr (.inl rfl)
        · simp only [List.not_mem_nil, false_or] at hx
          rw [hx.2]
          exact numberChar_zero
        · exact .inl (digits x (List.mem_cons.mpr hx))
  · -- one digit, the others after a point, and the exponent
    simp only [String.toList_append, String.toList_ofList, List.take_succ_cons, List.take_zero,
      List.drop_succ_cons, List.drop_zero, List.cons_append, List.nil_append]
    refine ⟨c, _, rfl, first, ?_⟩
    simp only [List.mem_append]
    rintro x (((hx | hx) | hx) | hx)
    · split at hx
      · simp at hx
      · simp only [String.toList_append, String.toList_ofList, List.mem_append] at hx
        rcases hx with hx | hx
        · simp at hx
          exact .inr (.inl hx)
        · exact tail x hx
    · simp at hx
      exact .inr (.inr (.inl hx))
    · split at hx
      · simp at hx
        exact .inr (.inr (.inr (.inl hx)))
      · simp at hx
    · exact numberChar_of_mem_intRepr hx

end BrilFlow.Decimal

namespace BrilFlow.Json

open BrilFlow.Decimal

section Bytes

variable {bytes : ByteArray} {i : Nat} {b : UInt8} {rest : List UInt8}

theorem lt_size_of_restFrom (h : restFrom bytes i = b :: rest) : i < bytes.size := by
  have := length_restFrom bytes i
  rw [h, List.length_cons] at this
  omega

theorem skipDigits_of_digit (h : restFrom bytes i = b :: rest) (digit : isDigit b = true) :
    skipDigits bytes i = skipDigits bytes (i + 1) := by
  have lt := lt_size_of_restFrom h
  have at_i : bytes[i] = b := by
    have := getElem?_of_restFrom h
    rw [getElem?_pos bytes i lt] at this
    exact Option.some.inj this
  rw [skipDigits, dif_pos lt, if_pos (by rw [at_i]; exact digit)]

theorem skipDigits_of_stop (h : ∀ b ∈ (restFrom bytes i).head?, isDigit b = false) :
    skipDigits bytes i = i := by
  rw [skipDigits]
  split
  · next lt =>
    have : isDigit bytes[i] = false :=
      h _ (by rw [← getElem?_eq_head?, getElem?_pos bytes i lt]; rfl)
    simp [this]
  · rfl

theorem flatMap_utf8EncodeChar_numberChars : ∀ (xs : List Char), (∀ x ∈ xs, NumberChar x) →
    xs.flatMap String.utf8EncodeChar = xs.map fun x => UInt8.ofNat x.toNat
  | [], _ => rfl
  | x :: xs, h => by
    rw [List.flatMap_cons, List.map_cons, utf8EncodeChar_ascii (h x List.mem_cons_self).toNat_lt,
      flatMap_utf8EncodeChar_numberChars xs fun y hy => h y (List.mem_cons_of_mem x hy)]
    rfl

theorem textBytes_of_numberChars {s : String} (h : ∀ x ∈ s.toList, NumberChar x) :
    textBytes s = s.toList.map fun x => UInt8.ofNat x.toNat := by
  rw [textBytes_eq, flatMap_utf8EncodeChar_numberChars _ h]

/-- The JSON text of a float: `null` unless it is finite, and otherwise a minus sign or a digit
first and no blank anywhere. -/
theorem textBytes_numberText_float (bits : UInt64) :
    textBytes (numberText (.float bits)) = [110, 117, 108, 108] ∨
      ∃ c rest, textBytes (numberText (.float bits)) = c :: rest ∧ (c = 45 ∨ isDigit c = true) ∧
        ∀ b ∈ c :: rest, isBlank b = false := by
  rw [numberText]
  unfold FloatLayout.render
  split
  · right
    obtain ⟨c, rest, body, digit, tail⟩ :=
      FloatLayout.body_chars floatLayout (shortest floatLayout.ties (magnitude bits))
    have chars : ∀ x ∈ ((if signBit bits then "-" else "") ++
        floatLayout.body (shortest floatLayout.ties (magnitude bits))).toList, NumberChar x := by
      rw [String.toList_append, body]
      intro x hx
      rcases List.mem_append.mp hx with sign | hx
      · split at sign
        · simp at sign
          exact .inr (.inr (.inr (.inr sign)))
        · simp at sign
      · rcases List.mem_cons.mp hx with rfl | hx
        · exact .inl digit
        · exact tail x hx
    have noBlank : ∀ b ∈ textBytes ((if signBit bits then "-" else "") ++
        floatLayout.body (shortest floatLayout.ties (magnitude bits))), isBlank b = false := by
      rw [textBytes_of_numberChars chars]
      intro b hb
      obtain ⟨x, hx, rfl⟩ := List.mem_map.mp hb
      exact (chars x hx).not_blank
    have start : ∃ c' rest', textBytes ((if signBit bits then "-" else "") ++
        floatLayout.body (shortest floatLayout.ties (magnitude bits))) = c' :: rest' ∧
        (c' = 45 ∨ isDigit c' = true) := by
      rw [textBytes_of_numberChars chars, String.toList_append, body]
      split
      · exact ⟨45, _, rfl, .inl rfl⟩
      · exact ⟨_, _, rfl, .inr (isDigit_ofNat digit)⟩
    obtain ⟨c', rest', text, first⟩ := start
    exact ⟨c', rest', text, first, text ▸ noBlank⟩
  · left
    split
    · rfl
    · split <;> rfl

end Bytes

/-- `outer` holds, from index `shift` on, all the bytes of `inner` and then `after`, whose first
byte, if any, cannot continue a number. -/
structure NumberWindow where
  inner : ByteArray
  outer : ByteArray
  shift : Nat
  after : List UInt8
  holds : restFrom outer shift = restFrom inner 0 ++ after
  stops : NumberStop after

namespace NumberWindow

variable {α β : Type} (w : NumberWindow) {p : Nat}

theorem restFrom_outer (hp : p ≤ w.inner.size) :
    restFrom w.outer (p + w.shift) = restFrom w.inner p ++ w.after := by
  have len : p ≤ (restFrom w.inner 0).length := by
    rw [length_restFrom]
    omega
  rw [restFrom, Nat.add_comm, ← List.drop_drop, ← restFrom, w.holds,
    List.drop_append_of_le_length len, restFrom, restFrom, List.drop_drop, Nat.zero_add]

theorem inner_size_le : w.inner.size ≤ w.outer.size := by
  have := congrArg List.length w.holds
  rw [List.length_append, length_restFrom, length_restFrom] at this
  omega

theorem after_head : w.after.head? = none ∨
    ∃ b, w.after.head? = some b ∧ isDigit b = false ∧ b ≠ 46 ∧ b ≠ 101 ∧ b ≠ 69 := by
  cases hd : w.after.head? with
  | none => exact .inl rfl
  | some b => exact .inr ⟨b, rfl, w.stops b hd⟩

variable {w}

theorem restFrom_inner_end (hp : p = w.inner.size) : restFrom w.inner p = [] := by
  apply List.eq_nil_of_length_eq_zero
  rw [length_restFrom]
  omega

theorem restFrom_outer_end (hp : p = w.inner.size) : restFrom w.outer (p + w.shift) = w.after := by
  rw [w.restFrom_outer (Nat.le_of_eq hp), restFrom_inner_end hp, List.nil_append]

theorem skipDigits_outer {p : Nat} (hp : p ≤ w.inner.size) :
    skipDigits w.outer (p + w.shift) = skipDigits w.inner p + w.shift ∧
      skipDigits w.inner p ≤ w.inner.size := by
  have outer := w.restFrom_outer hp
  cases ahead : restFrom w.inner p with
  | nil =>
    rw [ahead, List.nil_append] at outer
    rw [skipDigits_of_stop (by rw [outer]; exact fun b hb => (w.stops b hb).1),
      skipDigits_of_stop (by rw [ahead]; simp)]
    exact ⟨rfl, hp⟩
  | cons b rest =>
    rw [ahead, List.cons_append] at outer
    have lt := lt_size_of_restFrom ahead
    by_cases digit : isDigit b = true
    · obtain ⟨same, within⟩ := skipDigits_outer (p := p + 1) (by omega)
      rw [skipDigits_of_digit outer digit, skipDigits_of_digit ahead digit, Nat.add_right_comm,
        same]
      exact ⟨rfl, within⟩
    · have stop : isDigit b = false := by simpa using digit
      rw [skipDigits_of_stop (by rw [outer]; simpa using stop),
        skipDigits_of_stop (by rw [ahead]; simpa using stop)]
      exact ⟨rfl, hp⟩
termination_by w.inner.size - p
decreasing_by omega

variable (w)

/-- What `r` reads from index `p` of the inner text, `r'` reads from the same place of the outer
text, and it stops inside the inner text. -/
def Tracks (r r' : Reader α) (p : Nat) : Prop :=
  ∀ (x : α) (q : Nat), Reads r w.inner p x q →
    q ≤ w.inner.size ∧ Reads r' w.outer (p + w.shift) x (q + w.shift)

variable {w}

section Combinators

theorem Tracks.bind {x x' : Reader α} {f f' : α → Reader β} (hx : w.Tracks x x' p)
    (hf : ∀ a q, Reads x w.inner p a q → q ≤ w.inner.size → w.Tracks (f a) (f' a) q) :
    w.Tracks (x >>= f) (x' >>= f') p := by
  intro y r h
  obtain ⟨a, q, ha, hfa⟩ := Reads.of_bind h
  obtain ⟨inside, ha'⟩ := hx a q ha
  obtain ⟨within, hfa'⟩ := hf a q ha inside y r hfa
  exact ⟨within, ha'.bind hfa'⟩

theorem tracks_pure (hp : p ≤ w.inner.size) (a : α) : w.Tracks (pure a) (pure a) p := by
  intro x q h
  obtain ⟨rfl, rfl⟩ := (reads_pure a).unique h
  exact ⟨hp, reads_pure a⟩

theorem tracks_bump (hp : p < w.inner.size) : w.Tracks bump bump p := by
  intro x q h
  obtain ⟨rfl, rfl⟩ := reads_bump.unique h
  refine ⟨hp, ?_⟩
  rw [Nat.add_right_comm]
  exact reads_bump

theorem tracks_of_fails {r r' : Reader α} (h : Fails r w.inner p) : w.Tracks r r' p :=
  fun _ _ hr => (hr.not_fails h).elim

theorem tracks_read_bind {f f' : ByteArray → Reader α} (h : w.Tracks (f w.inner) (f' w.outer) p) :
    w.Tracks (read >>= f) (read >>= f') p := by
  intro x q hr
  rw [Reads.bind_iff reads_read] at hr ⊢
  exact h x q hr

theorem tracks_get_bind {f f' : Nat → Reader α} (h : w.Tracks (f p) (f' (p + w.shift)) p) :
    w.Tracks (get >>= f) (get >>= f') p := by
  intro x q hr
  rw [Reads.bind_iff reads_get] at hr ⊢
  exact h x q hr

theorem tracks_set {j : Nat} (hj : j ≤ w.inner.size) : w.Tracks (set j) (set (j + w.shift)) p := by
  intro x q hr
  obtain ⟨-, rfl⟩ := reads_set.unique hr
  exact ⟨hj, reads_set⟩

theorem tracks_peekByte_bind {k k' : Option UInt8 → Reader α} (hp : p ≤ w.inner.size)
    (inside : ∀ b rest, restFrom w.inner p = b :: rest → w.Tracks (k (some b)) (k' (some b)) p)
    (atEnd : p = w.inner.size → w.Tracks (k none) (k' w.after.head?) p) :
    w.Tracks (peekByte >>= k) (peekByte >>= k') p := by
  have outer := w.restFrom_outer hp
  intro x q h
  rw [Reads.bind_iff (reads_peekByte_of rfl)] at h
  rw [Reads.bind_iff (reads_peekByte_of outer)]
  cases ahead : restFrom w.inner p with
  | nil =>
    rw [ahead] at h
    have := length_restFrom w.inner p
    rw [ahead, List.length_nil] at this
    exact atEnd (by omega) x q h
  | cons b rest =>
    rw [ahead] at h
    exact inside b rest ahead x q h

theorem tracks_at_end {r r' : Reader α} {a : α} (hp : p = w.inner.size)
    (stays : ∀ {bytes : ByteArray} {i : Nat}, NumberStop (restFrom bytes i) → Reads r bytes i a i)
    (stays' : ∀ {bytes : ByteArray} {i : Nat}, NumberStop (restFrom bytes i) →
      Reads r' bytes i a i) :
    w.Tracks r r' p := by
  intro x q hr
  have inner : NumberStop (restFrom w.inner p) := by
    rw [restFrom_inner_end hp]
    exact fun b hb => by cases hb
  obtain ⟨rfl, rfl⟩ := (stays inner).unique hr
  refine ⟨Nat.le_of_eq hp, stays' ?_⟩
  rw [restFrom_outer_end hp]
  exact w.stops

end Combinators

section Stops

variable {bytes : ByteArray} {i : Nat}

theorem reads_exponentDigits_stop (acc f : Nat) (stop : NumberStop (restFrom bytes i)) :
    Reads (exponentDigits acc f) bytes i (some acc) i := by
  cases f with
  | zero =>
    rw [exponentDigits]
    exact reads_pure _
  | succ f =>
    rw [exponentDigits, Reads.bind_iff (reads_peekByte_of rfl)]
    cases hd : (restFrom bytes i).head? with
    | none => exact reads_pure _
    | some b =>
      simp only [(stop b hd).1, Bool.false_eq_true, ↓reduceIte]
      exact reads_pure _

theorem reads_fractionDigits_stop (positive : Bool) (acc count : Nat) (before : Int) (f : Nat)
    (stop : NumberStop (restFrom bytes i)) :
    Reads (fractionDigits positive acc count before f) bytes i (.inr (acc, count)) i := by
  cases f with
  | zero =>
    rw [fractionDigits]
    exact reads_pure _
  | succ f =>
    rw [fractionDigits, Reads.bind_iff (reads_peekByte_of rfl)]
    cases hd : (restFrom bytes i).head? with
    | none => exact reads_pure _
    | some b =>
      simp only [(stop b hd).1, Bool.false_eq_true, ↓reduceIte]
      exact reads_pure _

theorem reads_integerDigits_stop (positive : Bool) (acc f : Nat)
    (stop : NumberStop (restFrom bytes i)) :
    Reads (integerDigits positive acc f) bytes i
      (if positive then .nat acc
        else if acc = 0 ∨ Nat.pow 2 63 < acc then .float (negate (nearest acc 0))
        else .neg (-(acc : Int))) i := by
  cases f with
  | zero =>
    rw [integerDigits]
    exact reads_parseNumberTail rfl stop
  | succ f =>
    rw [integerDigits, Reads.bind_iff (reads_peekByte_of rfl)]
    cases hd : (restFrom bytes i).head? with
    | none => exact reads_parseNumberTail rfl stop
    | some b =>
      simp only [(stop b hd).1, Bool.false_eq_true, ↓reduceIte]
      exact reads_parseNumberTail rfl stop

end Stops

section Number

-- Each piece of the number reader is tracked; the digit loops run on fuel taken from the size
-- of the text they read, so their two sides run on different fuel, each enough to reach the end.

theorem tracks_floatOfParts (hp : p ≤ w.inner.size) (positive : Bool) (s : Nat) (e : Int) :
    w.Tracks (floatOfParts positive s e) (floatOfParts positive s e) p := by
  unfold floatOfParts
  split
  · exact tracks_of_fails (fails_failHere _)
  · exact tracks_pure hp _

theorem tracks_exponentDigits {p acc : Nat} (f f' : Nat) (hp : p ≤ w.inner.size)
    (enough : w.inner.size ≤ p + f) (enough' : w.inner.size ≤ p + f') :
    w.Tracks (exponentDigits acc f) (exponentDigits acc f') p := by
  by_cases hend : p = w.inner.size
  · exact tracks_at_end hend (reads_exponentDigits_stop acc f) (reads_exponentDigits_stop acc f')
  obtain ⟨g, rfl⟩ : ∃ g, f = g + 1 := ⟨f - 1, by omega⟩
  obtain ⟨g', rfl⟩ : ∃ g', f' = g' + 1 := ⟨f' - 1, by omega⟩
  rw [exponentDigits, exponentDigits]
  refine tracks_peekByte_bind hp (fun b rest ahead => ?_) (fun h => absurd h hend)
  simp only
  split
  · have lt := lt_size_of_restFrom ahead
    refine (tracks_bump lt).bind fun _ q hq _ => ?_
    obtain ⟨-, rfl⟩ := reads_bump.unique hq
    split
    · exact tracks_pure (by omega) _
    · exact tracks_exponentDigits g g' (by omega) (by omega) (by omega)
  · exact tracks_pure hp _
termination_by f

theorem tracks_parseExponent (hp : p < w.inner.size) (positive : Bool) (s : Nat) (start : Int) :
    w.Tracks (parseExponent positive s start) (parseExponent positive s start) p := by
  unfold parseExponent
  lift_lets
  intro jp
  -- after the sign, if any: the digits of the exponent and the float
  have digits : ∀ positiveExponent q, q ≤ w.inner.size →
      w.Tracks (jp positiveExponent) (jp positiveExponent) q := by
    intro positiveExponent q within
    refine tracks_peekByte_bind within (fun b rest ahead => ?_)
      (fun _ => tracks_of_fails (fails_failHere _))
    simp only
    have lt := lt_size_of_restFrom ahead
    refine (tracks_bump lt).bind fun _ r hr _ => ?_
    obtain ⟨-, rfl⟩ := reads_bump.unique hr
    split
    · exact tracks_of_fails (fails_failHere _)
    refine tracks_read_bind ((tracks_exponentDigits _ _ (by omega) (by omega)
      (by have := w.inner_size_le; omega)).bind fun e r _ within => ?_)
    cases e with
    | some e => exact tracks_floatOfParts within _ _ _
    | none =>
      simp only
      split
      · exact tracks_of_fails (fails_failHere _)
      refine tracks_get_bind ?_
      obtain ⟨same, inside⟩ := skipDigits_outer within
      rw [same]
      exact (tracks_set inside).bind fun _ r _ within => tracks_pure within _
  refine (tracks_bump hp).bind fun _ q hq _ => ?_
  obtain ⟨-, rfl⟩ := reads_bump.unique hq
  by_cases hend : p + 1 = w.inner.size
  · -- the text ends at the exponent mark, where the exponent's digits are needed
    have ends := reads_peekByte_of (restFrom_inner_end (w := w) hend)
    exact tracks_of_fails (ends.bind_fails ((reads_pure true).bind_fails
      (ends.bind_fails (fails_failHere _))))
  refine tracks_peekByte_bind (by omega) (fun b rest ahead => ?_) (fun h => absurd h hend)
  have lt := lt_size_of_restFrom ahead
  split
  · exact (tracks_bump lt).bind fun _ _ _ within => digits true _ within
  · exact (tracks_bump lt).bind fun _ _ _ within => digits false _ within
  · exact digits true _ (by omega)

theorem tracks_parseFractionOverflow (hp : p ≤ w.inner.size) (positive : Bool) (s : Nat)
    (exponent : Int) :
    w.Tracks (parseFractionOverflow positive s exponent)
      (parseFractionOverflow positive s exponent) p := by
  unfold parseFractionOverflow
  refine tracks_read_bind (tracks_get_bind ?_)
  obtain ⟨same, inside⟩ := skipDigits_outer hp
  rw [same]
  refine (tracks_set inside).bind fun _ q hq within => ?_
  refine tracks_peekByte_bind within (fun b rest ahead => ?_) (fun _ => ?_)
  · split
    · exact tracks_parseExponent (lt_size_of_restFrom ahead) _ _ _
    · exact tracks_parseExponent (lt_size_of_restFrom ahead) _ _ _
    · exact tracks_floatOfParts within _ _ _
  · -- the byte after the number, if any, is no exponent mark
    rcases w.after_head with hd | ⟨b, hd, -, -, e, E⟩ <;> rw [hd]
    · exact tracks_floatOfParts within _ _ _
    · split <;> try contradiction
      split <;> (try (simp only [Option.some.injEq] at *; contradiction))
      exact tracks_floatOfParts within _ _ _

theorem tracks_fractionDigits {p : Nat} (positive : Bool) (acc count : Nat) (before : Int) (f f' : Nat)
    (hp : p ≤ w.inner.size) (enough : w.inner.size ≤ p + f) (enough' : w.inner.size ≤ p + f') :
    w.Tracks (fractionDigits positive acc count before f)
      (fractionDigits positive acc count before f') p := by
  by_cases hend : p = w.inner.size
  · exact tracks_at_end hend (reads_fractionDigits_stop positive acc count before f)
      (reads_fractionDigits_stop positive acc count before f')
  obtain ⟨g, rfl⟩ : ∃ g, f = g + 1 := ⟨f - 1, by omega⟩
  obtain ⟨g', rfl⟩ : ∃ g', f' = g' + 1 := ⟨f' - 1, by omega⟩
  rw [fractionDigits, fractionDigits]
  refine tracks_peekByte_bind hp (fun b rest ahead => ?_) (fun h => absurd h hend)
  simp only
  have lt := lt_size_of_restFrom ahead
  split
  · split
    · exact (tracks_parseFractionOverflow hp _ _ _).bind fun _ q _ within => tracks_pure within _
    · refine (tracks_bump lt).bind fun _ q hq _ => ?_
      obtain ⟨-, rfl⟩ := reads_bump.unique hq
      exact tracks_fractionDigits positive _ _ before g g' (by omega) (by omega) (by omega)
  · exact tracks_pure hp _
termination_by f

theorem tracks_parseDecimal (hp : p < w.inner.size) (positive : Bool) (s : Nat) (before : Int) :
    w.Tracks (parseDecimal positive s before) (parseDecimal positive s before) p := by
  unfold parseDecimal
  refine (tracks_bump hp).bind fun _ q hq _ => ?_
  obtain ⟨-, rfl⟩ := reads_bump.unique hq
  refine tracks_read_bind ((tracks_fractionDigits positive s 0 before _ _ (by omega) (by omega)
    (by have := w.inner_size_le; omega)).bind fun r q _ within => ?_)
  rcases r with n | ⟨acc, count⟩
  · exact tracks_pure within _
  simp only
  split
  · -- a point with no digit after it
    refine tracks_of_fails (reads_peekByte.bind_fails ?_)
    cases w.inner[q]? <;> exact fails_failNext _
  refine tracks_peekByte_bind within (fun b rest ahead => ?_) (fun _ => ?_)
  · split
    · exact tracks_parseExponent (lt_size_of_restFrom ahead) _ _ _
    · exact tracks_parseExponent (lt_size_of_restFrom ahead) _ _ _
    · exact tracks_floatOfParts within _ _ _
  · rcases w.after_head with hd | ⟨b, hd, -, -, e, E⟩ <;> rw [hd]
    · exact tracks_floatOfParts within _ _ _
    · split <;> try contradiction
      split <;> (try (simp only [Option.some.injEq] at *; contradiction))
      exact tracks_floatOfParts within _ _ _

theorem tracks_parseLongInteger (hp : p ≤ w.inner.size) (positive : Bool) (s : Nat) :
    w.Tracks (parseLongInteger positive s) (parseLongInteger positive s) p := by
  unfold parseLongInteger
  refine tracks_read_bind (tracks_get_bind ?_)
  obtain ⟨same, inside⟩ := skipDigits_outer hp
  have exponent : ((skipDigits w.inner p + w.shift : Nat) : Int) - ((p + w.shift : Nat) : Int) =
      (skipDigits w.inner p : Int) - (p : Int) := by omega
  simp only [same, exponent]
  refine (tracks_set inside).bind fun _ q hq within => ?_
  refine tracks_peekByte_bind within (fun b rest ahead => ?_) (fun _ => ?_)
  · split
    · exact tracks_parseDecimal (lt_size_of_restFrom ahead) _ _ _
    · exact tracks_parseExponent (lt_size_of_restFrom ahead) _ _ _
    · exact tracks_parseExponent (lt_size_of_restFrom ahead) _ _ _
    · exact tracks_floatOfParts within _ _ _
  · rcases w.after_head with hd | ⟨b, hd, -, point, e, E⟩ <;> rw [hd]
    · exact tracks_floatOfParts within _ _ _
    · split <;> try contradiction
      split <;> (try (simp only [Option.some.injEq] at *; contradiction))
      exact tracks_floatOfParts within _ _ _

theorem tracks_parseNumberTail (hp : p ≤ w.inner.size) (positive : Bool) (n : Nat) :
    w.Tracks (parseNumberTail positive n) (parseNumberTail positive n) p := by
  by_cases hend : p = w.inner.size
  · exact tracks_at_end hend (fun stop => reads_parseNumberTail rfl stop)
      (fun stop => reads_parseNumberTail rfl stop)
  unfold parseNumberTail
  refine tracks_peekByte_bind hp (fun b rest ahead => ?_) (fun h => absurd h hend)
  have lt := lt_size_of_restFrom ahead
  split
  · exact tracks_parseDecimal lt _ _ _
  · exact tracks_parseExponent lt _ _ _
  · exact tracks_parseExponent lt _ _ _
  · split
    · exact tracks_pure hp _
    · split <;> exact tracks_pure hp _

theorem tracks_integerDigits {p : Nat} (positive : Bool) (acc f f' : Nat) (hp : p ≤ w.inner.size)
    (enough : w.inner.size ≤ p + f) (enough' : w.inner.size ≤ p + f') :
    w.Tracks (integerDigits positive acc f) (integerDigits positive acc f') p := by
  by_cases hend : p = w.inner.size
  · exact tracks_at_end hend (reads_integerDigits_stop positive acc f)
      (reads_integerDigits_stop positive acc f')
  obtain ⟨g, rfl⟩ : ∃ g, f = g + 1 := ⟨f - 1, by omega⟩
  obtain ⟨g', rfl⟩ : ∃ g', f' = g' + 1 := ⟨f' - 1, by omega⟩
  rw [integerDigits, integerDigits]
  refine tracks_peekByte_bind hp (fun b rest ahead => ?_) (fun h => absurd h hend)
  simp only
  have lt := lt_size_of_restFrom ahead
  split
  · split
    · exact tracks_parseLongInteger hp _ _
    · refine (tracks_bump lt).bind fun _ q hq _ => ?_
      obtain ⟨-, rfl⟩ := reads_bump.unique hq
      exact tracks_integerDigits positive _ g g' (by omega) (by omega) (by omega)
  · exact tracks_parseNumberTail hp _ _
termination_by f

/-- The number reader reads the same number from the outer text as from the inner one. -/
theorem tracks_parseNumber (hp : p ≤ w.inner.size) (positive : Bool) :
    w.Tracks (parseNumber positive) (parseNumber positive) p := by
  unfold parseNumber
  refine tracks_peekByte_bind hp (fun b rest ahead => ?_)
    (fun _ => tracks_of_fails (fails_failHere _))
  simp only
  have lt := lt_size_of_restFrom ahead
  refine (tracks_bump lt).bind fun _ q hq within => ?_
  obtain ⟨-, rfl⟩ := reads_bump.unique hq
  split
  · -- a leading zero: no digit may follow it
    refine tracks_peekByte_bind within (fun c rest ahead => ?_) (fun _ => ?_)
    · simp only
      split
      · exact tracks_of_fails (fails_failNext _)
      · exact tracks_parseNumberTail within _ _
    · rcases w.after_head with hd | ⟨c, hd, digit, -⟩ <;> rw [hd]
      · exact tracks_parseNumberTail within _ _
      · simp only [digit, Bool.false_eq_true, ↓reduceIte]
        exact tracks_parseNumberTail within _ _
  split
  · exact tracks_read_bind (tracks_integerDigits positive _ _ _ within (by omega)
      (by have := w.inner_size_le; omega))
  · exact tracks_of_fails (fails_failHere _)

end Number

end NumberWindow

section Alone

variable {α : Type} {bytes : ByteArray} {i j fuel depth : Nat} {w : List UInt8} {n : Number}

theorem reads_parseNumber_of_minus (h : restFrom bytes i = 45 :: w)
    (hr : Reads (parseAny depth (fuel + 1)) bytes i (.num n) j) :
    Reads (parseNumber false) bytes (i + 1) n j := by
  cases hn : ((parseNumber false).run bytes).run (i + 1) with
  | ok n' j' =>
    obtain ⟨same, rfl⟩ := (reads_parseAny_minus (t := []) (by rwa [List.append_nil]) hn).unique hr
    cases same
    exact hn
  | error e j' => exact (hr.not_fails (fails_parseAny_minus h ⟨e, j', hn⟩)).elim

theorem reads_parseNumber_of_digit {b : UInt8} (h : restFrom bytes i = b :: w)
    (digit : isDigit b = true) (hr : Reads (parseAny depth (fuel + 1)) bytes i (.num n) j) :
    Reads (parseNumber true) bytes i n j := by
  cases hn : ((parseNumber true).run bytes).run i with
  | ok n' j' =>
    obtain ⟨same, rfl⟩ :=
      (reads_parseAny_digit (t := []) (by rwa [List.append_nil]) digit hn).unique hr
    cases same
    exact hn
  | error e j' => exact (hr.not_fails (fails_parseAny_digit h digit ⟨e, j', hn⟩)).elim

theorem reads_of_readAll {r : Reader α} {text : String} {x : α} (h : readAll r text = .ok x) :
    ∃ j, Reads r text.toUTF8 0 x j ∧ text.toUTF8[skipBlanks text.toUTF8 j]? = none := by
  unfold readAll at h
  dsimp only at h
  split at h
  · next y k ran =>
    cases h
    obtain ⟨a, j, ha, rest⟩ := Reads.of_bind ran
    obtain ⟨o, m, ws, finish⟩ := Reads.of_bind rest
    have skip : Reads parseWhitespace text.toUTF8 j text.toUTF8[skipBlanks text.toUTF8 j]?
        (skipBlanks text.toUTF8 j) := rfl
    obtain ⟨rfl, rfl⟩ := skip.unique ws
    cases hb : text.toUTF8[skipBlanks text.toUTF8 j]? with
    | none =>
      rw [hb] at finish
      obtain ⟨rfl, -⟩ := (reads_pure a).unique finish
      exact ⟨j, ha, hb⟩
    | some b =>
      rw [hb] at finish
      exact (finish.not_fails (fails_failNext _)).elim
  · cases h

theorem eq_size_of_skipBlanks (hj : j ≤ bytes.size)
    (noBlank : ∀ b ∈ restFrom bytes j, isBlank b = false)
    (ends : bytes[skipBlanks bytes j]? = none) : j = bytes.size := by
  cases ahead : restFrom bytes j with
  | nil =>
    have := length_restFrom bytes j
    rw [ahead, List.length_nil] at this
    omega
  | cons b rest =>
    -- a byte is left, and it is no blank
    rw [ahead] at noBlank
    have stays : skipBlanks bytes j = j :=
      skipBlanks_of_head (by rw [ahead]; exact fun c hc => noBlank c (by cases hc; exact List.mem_cons_self))
    rw [stays, getElem?_of_restFrom ahead] at ends
    cases ends

/-- A number read from `p` to the end of a text with no blank there is read the same from the
text's place in any window, to the end of the place. -/
theorem NumberWindow.reads_parseNumber_whole (win : NumberWindow) {p : Nat} (hp : p ≤ win.inner.size)
    {positive : Bool} (hr : Reads (parseNumber positive) win.inner p n j)
    (noBlank : ∀ b ∈ restFrom win.inner j, isBlank b = false)
    (ends : win.inner[skipBlanks win.inner j]? = none) :
    Reads (parseNumber positive) win.outer (p + win.shift) n (win.inner.size + win.shift) := by
  obtain ⟨within, there⟩ := win.tracks_parseNumber hp positive _ _ hr
  rwa [eq_size_of_skipBlanks within noBlank ends] at there

end Alone

/-- A float whose JSON text, read alone as a whole value, is that float. -/
def FloatReadsBack (bits : UInt64) : Prop :=
  readAll (value depthLimit) (numberText (.float bits)) = .ok (.num (.float bits))

def checkFloatReadsBack (bits : UInt64) : Bool :=
  match readAll (value depthLimit) (numberText (.float bits)) with
  | .ok (.num (.float b)) => b == bits
  | _ => false

theorem checkFloatReadsBack_iff {bits : UInt64} :
    checkFloatReadsBack bits = true ↔ FloatReadsBack bits := by
  unfold checkFloatReadsBack FloatReadsBack
  split
  · next b read => simp [read]
  · next other =>
    simp only [Bool.false_eq_true, false_iff]
    intro read
    exact other _ read

instance : DecidablePred FloatReadsBack := fun _ => decidable_of_iff _ checkFloatReadsBack_iff

/-- A float whose text reads back alone reads back in place, wherever its text stands before a
byte that cannot continue a number. -/
theorem FloatReadsBack.inPlace {bits : UInt64} (h : FloatReadsBack bits) : FloatReadsInPlace bits := by
  obtain ⟨j, hr, ends⟩ := reads_of_readAll h
  rw [value, Reads.bind_iff reads_read] at hr
  rcases textBytes_numberText_float bits with null | ⟨c, rest, text, first, noBlank⟩
  · -- `null` is read as null, not as a number
    obtain ⟨same, -⟩ :=
      (reads_parseAny_null (by rw [restFrom_toUTF8, null, List.append_nil])).unique hr
    cases same
  have whole : restFrom (numberText (.float bits)).toUTF8 0 = c :: rest := by
    rw [restFrom_toUTF8, text]
  have size : (numberText (.float bits)).toUTF8.size = rest.length + 1 := by
    have := length_restFrom (numberText (.float bits)).toUTF8 0
    rw [whole, List.length_cons] at this
    omega
  have noBlank' : ∀ k, ∀ b ∈ restFrom (numberText (.float bits)).toUTF8 k, isBlank b = false := by
    intro k b hb
    have later : restFrom (numberText (.float bits)).toUTF8 k =
        (restFrom (numberText (.float bits)).toUTF8 0).drop k := by
      rw [restFrom, restFrom, List.drop_zero]
    rw [later, whole] at hb
    exact noBlank b (List.mem_of_mem_drop hb)
  refine ⟨c, rest, text, ?_⟩
  rcases first with rfl | digit
  · refine .inl ⟨rfl, fun {outer i t} ho stop => ?_⟩
    let win : NumberWindow := ⟨_, outer, i, t, by rw [ho, whole], stop⟩
    have there := win.reads_parseNumber_whole (p := 1)
      (show 1 ≤ (numberText (.float bits)).toUTF8.size by omega)
      (reads_parseNumber_of_minus whole hr) (noBlank' j) ends
    rwa [size, show 1 + i = i + 1 by omega, show rest.length + 1 + i = i + 1 + rest.length by omega]
      at there
  · refine .inr ⟨digit, fun {outer i t} ho stop => ?_⟩
    let win : NumberWindow := ⟨_, outer, i, t, by rw [ho, whole], stop⟩
    have there := win.reads_parseNumber_whole (p := 0) (Nat.zero_le _)
      (reads_parseNumber_of_digit whole digit hr) (noBlank' j) ends
    rwa [size, show 0 + i = i by omega, show rest.length + 1 + i = i + 1 + rest.length by omega]
      at there

end BrilFlow.Json
