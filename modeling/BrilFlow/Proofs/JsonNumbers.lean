import BrilFlow.Proofs.JsonStrings

/-! Integers read back. The digits of a number are read one by one into an accumulator, which
stays below `2^64` for every number that fits; the byte after the last digit decides what
follows, and for a byte that cannot continue a number the integer is returned: unsigned as it
is, and negative when its magnitude is at most `2^63`. -/
namespace BrilFlow.Json

open String (utf8EncodeChar)
open BrilFlow.Decimal

def accumulate (acc : Nat) (w : List UInt8) : Nat := w.foldl (fun a b => a * 10 + digitValue b) acc

@[simp] theorem accumulate_nil (acc : Nat) : accumulate acc [] = acc := rfl

@[simp] theorem accumulate_cons (acc : Nat) (b : UInt8) (w : List UInt8) :
    accumulate acc (b :: w) = accumulate (acc * 10 + digitValue b) w := by
  rw [accumulate, accumulate, List.foldl_cons]

theorem le_accumulate (acc : Nat) (w : List UInt8) : acc ≤ accumulate acc w := by
  induction w generalizing acc with
  | nil => exact Nat.le_refl acc
  | cons b w ih =>
    rw [accumulate_cons]
    exact Nat.le_trans (by omega) (ih _)

theorem digitValue_lt {b : UInt8} (h : isDigit b = true) : digitValue b < 10 := by
  simp only [isDigit, Bool.and_eq_true, decide_eq_true_eq, UInt8.le_iff_toNat_le] at h
  simp only [digitValue]
  simp at h
  omega

theorem exceeds_eq_false {acc d limit : Nat} (h : acc * 10 + d ≤ limit) :
    exceeds acc d limit = false := by
  simp only [exceeds, Bool.and_eq_false_iff, Bool.or_eq_false_iff, decide_eq_false_iff_not]
  omega

/-- The bytes a byte may not be followed by where a number has ended: no digit, point or `e`. -/
def NumberStop (t : List UInt8) : Prop :=
  ∀ b ∈ t.head?, isDigit b = false ∧ b ≠ 46 ∧ b ≠ 101 ∧ b ≠ 69

section Reading

variable {bytes : ByteArray} {i : Nat} {t : List UInt8} {positive : Bool} {r : Number} {k : Nat}

theorem reads_integerDigits : ∀ (w : List UInt8) (acc fuel : Nat) {i : Nat},
    (∀ b ∈ w, isDigit b = true) → restFrom bytes i = w ++ t →
    (∀ b ∈ t.head?, isDigit b = false) → accumulate acc w ≤ u64Max → w.length ≤ fuel →
    Reads (parseNumberTail positive (accumulate acc w)) bytes (i + w.length) r k →
    Reads (integerDigits positive acc fuel) bytes i r k
  | [], acc, 0, i, _, _, _, _, _, tail => tail
  | [], acc, fuel + 1, i, _, h, stop, _, _, tail => by
    rw [integerDigits, Reads.bind_iff (reads_peekByte_of h)]
    cases t with
    | nil => exact tail
    | cons b t =>
      have notDigit := stop b rfl
      simp only [List.nil_append, List.head?_cons]
      rw [if_neg (by rw [notDigit]; decide)]
      exact tail
  | b :: w, acc, fuel, i, digits, h, stop, bound, enough, tail => by
    obtain ⟨f, rfl⟩ : ∃ f, fuel = f + 1 := ⟨fuel - 1, by simp at enough; omega⟩
    have digit := digits b List.mem_cons_self
    have within : acc * 10 + digitValue b ≤ u64Max :=
      Nat.le_trans (le_accumulate _ w) (by rwa [accumulate_cons] at bound)
    rw [integerDigits, Reads.bind_iff (reads_peekByte_of h)]
    simp only [List.cons_append, List.head?_cons]
    rw [if_pos digit, exceeds_eq_false within, if_neg (by decide), Reads.bind_iff reads_bump]
    refine reads_integerDigits w _ f (fun x hx => digits x (List.mem_cons_of_mem _ hx))
      (restFrom_succ h) stop bound (by simp at enough; omega) ?_
    rwa [Nat.add_assoc, Nat.add_comm 1, ← List.length_cons]

theorem reads_parseNumberTail {n : Nat} (h : restFrom bytes i = t) (stop : NumberStop t) :
    Reads (parseNumberTail positive n) bytes i
      (if positive then .nat n
        else if n = 0 ∨ Nat.pow 2 63 < n then .float (negate (nearest n 0))
        else .neg (-(n : Int))) i := by
  unfold parseNumberTail
  rw [Reads.bind_iff (reads_peekByte_of h)]
  split
  · next point => exact absurd rfl (stop 46 point).2.1
  · next e => exact absurd rfl (stop 101 e).2.2.1
  · next e => exact absurd rfl (stop 69 e).2.2.2
  · cases positive
    · simp only [Bool.false_eq_true, if_false]
      split <;> exact reads_pure _
    · exact reads_pure _

end Reading

section Digits

theorem utf8EncodeChar_digit {c : Char} (h : c.isDigit = true) :
    utf8EncodeChar c = [UInt8.ofNat c.toNat] := by
  apply utf8EncodeChar_ascii
  simp only [Char.isDigit, Bool.and_eq_true, decide_eq_true_eq] at h
  exact Nat.lt_of_le_of_lt h.2 (by decide)

def digitBytes (n : Nat) : List UInt8 := (Nat.toDigits 10 n).map fun c => UInt8.ofNat c.toNat

theorem flatMap_utf8EncodeChar_digits :
    ∀ (cs : List Char), (∀ c ∈ cs, c.isDigit = true) →
      cs.flatMap utf8EncodeChar = cs.map fun c => UInt8.ofNat c.toNat
  | [], _ => rfl
  | c :: cs, digits => by
    rw [List.flatMap_cons, List.map_cons, utf8EncodeChar_digit (digits c List.mem_cons_self),
      flatMap_utf8EncodeChar_digits cs fun x hx => digits x (List.mem_cons_of_mem _ hx)]
    rfl

theorem textBytes_repr (n : Nat) : textBytes n.repr = digitBytes n := by
  rw [Nat.repr, textBytes_ofList, digitBytes]
  exact flatMap_utf8EncodeChar_digits _ fun c hc =>
    Nat.isDigit_of_mem_toDigits (by omega) (by omega) hc

theorem isDigit_ofNat {c : Char} (h : c.isDigit = true) : isDigit (UInt8.ofNat c.toNat) = true := by
  simp only [Char.isDigit, Bool.and_eq_true, decide_eq_true_eq] at h
  have low : c.toNat % 256 = c.toNat := Nat.mod_eq_of_lt (Nat.lt_of_le_of_lt h.2 (by decide))
  simp only [isDigit, Bool.and_eq_true, decide_eq_true_eq, UInt8.le_iff_toNat_le,
    UInt8.toNat_ofNat', low, UInt8.reduceToNat]
  exact ⟨h.1, h.2⟩

theorem isDigit_of_mem_digitBytes {n : Nat} {b : UInt8} (h : b ∈ digitBytes n) :
    isDigit b = true := by
  obtain ⟨c, hc, rfl⟩ := List.mem_map.mp h
  exact isDigit_ofNat (Nat.isDigit_of_mem_toDigits (by omega) (by omega) hc)

theorem digitValue_ofNat {c : Char} (h : c.isDigit = true) :
    digitValue (UInt8.ofNat c.toNat) = c.toNat - '0'.toNat := by
  simp only [Char.isDigit, Bool.and_eq_true, decide_eq_true_eq] at h
  have low : c.toNat % 256 = c.toNat := Nat.mod_eq_of_lt (Nat.lt_of_le_of_lt h.2 (by decide))
  simp only [digitValue, UInt8.toNat_ofNat', low]
  rfl

/-- Accumulating digit bytes is reading the digits in base ten. -/
theorem accumulate_map_digits : ∀ (cs : List Char) (acc : Nat), (∀ c ∈ cs, c.isDigit = true) →
    accumulate acc (cs.map fun c => UInt8.ofNat c.toNat) = Nat.ofDigitChars 10 cs acc
  | [], acc, _ => by rw [List.map_nil, accumulate_nil, Nat.ofDigitChars_nil]
  | c :: cs, acc, digits => by
    rw [List.map_cons, accumulate_cons, Nat.ofDigitChars_cons,
      digitValue_ofNat (digits c List.mem_cons_self), Nat.mul_comm acc 10]
    exact accumulate_map_digits cs _ fun x hx => digits x (List.mem_cons_of_mem _ hx)

theorem accumulate_digitBytes (n : Nat) : accumulate 0 (digitBytes n) = n := by
  rw [digitBytes, accumulate_map_digits _ _ fun c hc =>
    Nat.isDigit_of_mem_toDigits (by omega) (by omega) hc]
  exact Nat.ofDigitChars_ten_toDigits

theorem toDigits_head (n : Nat) (hn : n ≠ 0) : ∃ c cs, Nat.toDigits 10 n = c :: cs ∧ c ≠ '0' := by
  induction n using Nat.strongRecOn with
  | ind n ih =>
    rw [Nat.toDigits_eq_if (by omega)]
    split
    · exact ⟨_, _, rfl, fun zero => hn (Nat.digitChar_eq_zero.mp zero)⟩
    · next large =>
      obtain ⟨c, cs, eq, nonzero⟩ := ih (n / 10) (by omega) (by omega)
      exact ⟨c, cs ++ [(n % 10).digitChar], by rw [eq, List.cons_append], nonzero⟩

theorem digitBytes_zero : digitBytes 0 = [48] := rfl

theorem digitBytes_head {n : Nat} (hn : n ≠ 0) :
    ∃ b w, digitBytes n = b :: w ∧ b ≠ 48 ∧ accumulate (digitValue b) w = n := by
  obtain ⟨c, cs, eq, nonzero⟩ := toDigits_head n hn
  have value := accumulate_digitBytes n
  have digit := Nat.isDigit_of_mem_toDigits (by omega) (by omega) (eq ▸ List.mem_cons_self)
  simp only [Char.isDigit, Bool.and_eq_true, decide_eq_true_eq] at digit
  refine ⟨UInt8.ofNat c.toNat, cs.map fun c => UInt8.ofNat c.toNat,
    by rw [digitBytes, eq, List.map_cons], fun zero => nonzero ?_, ?_⟩
  · have small : c.toNat < 256 := Nat.lt_of_le_of_lt digit.2 (by decide)
    have code : c.toNat = 48 := by
      have := congrArg UInt8.toNat zero
      simp only [UInt8.toNat_ofNat', UInt8.reduceToNat] at this
      omega
    rw [← Char.ofNat_toNat c, code]
  · rw [digitBytes, eq, List.map_cons, accumulate_cons, Nat.zero_mul, Nat.zero_add] at value
    exact value

end Digits

section Integers

variable {bytes : ByteArray} {i : Nat} {t : List UInt8} {positive : Bool} {r : Number} {k : Nat}

theorem reads_parseNumber_digits (n : Nat) (h : restFrom bytes i = digitBytes n ++ t)
    (stop : ∀ b ∈ t.head?, isDigit b = false) (fits : n ≤ u64Max)
    (tail : Reads (parseNumberTail positive n) bytes (i + (digitBytes n).length) r k) :
    Reads (parseNumber positive) bytes i r k := by
  unfold parseNumber
  by_cases zero : n = 0
  · -- a lone zero: the byte after it may not be a digit
    subst zero
    rw [digitBytes_zero] at h tail
    rw [Reads.bind_iff (reads_peekByte_of h)]
    simp only [List.cons_append, List.nil_append, List.head?_cons]
    rw [Reads.bind_iff reads_bump, if_pos (beq_self_eq_true _)]
    have next : restFrom bytes (i + 1) = t := restFrom_succ h
    rw [Reads.bind_iff (reads_peekByte_of next)]
    cases t with
    | nil => exact tail
    | cons c t =>
      simp only [List.head?_cons]
      rw [if_neg (by rw [stop c rfl]; decide)]
      exact tail
  · obtain ⟨b, w, digits, nonzero, value⟩ := digitBytes_head zero
    have size := length_restFrom bytes i
    rw [digits] at h tail
    rw [h] at size
    simp only [List.cons_append, List.length_cons, List.length_append] at size
    have digit := isDigit_of_mem_digitBytes (digits ▸ List.mem_cons_self : b ∈ digitBytes n)
    rw [Reads.bind_iff (reads_peekByte_of h)]
    simp only [List.cons_append, List.head?_cons]
    rw [Reads.bind_iff reads_bump, if_neg (by simpa using nonzero), if_pos digit,
      Reads.bind_iff reads_read]
    refine reads_integerDigits w _ bytes.size
      (fun x hx => isDigit_of_mem_digitBytes (digits ▸ List.mem_cons_of_mem _ hx))
      (restFrom_succ h) stop (value ▸ fits) (by omega) ?_
    rwa [value, Nat.add_assoc, Nat.add_comm 1, ← List.length_cons]

/-- An unsigned integer that fits in 64 bits is read back from its digits. -/
theorem reads_parseNumber_nat (n : Nat) (h : restFrom bytes i = digitBytes n ++ t)
    (stop : NumberStop t) (fits : n ≤ u64Max) :
    Reads (parseNumber true) bytes i (.nat n) (i + (digitBytes n).length) :=
  reads_parseNumber_digits n h (fun b hb => (stop b hb).1) fits
    (reads_parseNumberTail (restFrom_add h) stop)

/-- The magnitude of a negative integer of at least `-2^63`, after its minus sign, is read back
as the integer. -/
theorem reads_parseNumber_neg (n : Nat) (h : restFrom bytes i = digitBytes n ++ t)
    (stop : NumberStop t) (pos : n ≠ 0) (fits : n ≤ Nat.pow 2 63) :
    Reads (parseNumber false) bytes i (.neg (-(n : Int))) (i + (digitBytes n).length) := by
  have tail : Reads (parseNumberTail false n) bytes _ _ _ := reads_parseNumberTail (restFrom_add h) stop
  rw [if_neg (by decide), if_neg (by omega)] at tail
  exact reads_parseNumber_digits n h (fun b hb => (stop b hb).1)
    (Nat.le_trans fits (by decide)) tail

end Integers

/-- A float whose text starts with a minus sign or a digit and is read back as the same float
wherever it stands before a byte that ends a number. -/
def FloatReadsInPlace (bits : UInt64) : Prop :=
  ∃ c w, textBytes (numberText (.float bits)) = c :: w ∧
    ((c = 45 ∧ ∀ {bytes : ByteArray} {i : Nat} {t : List UInt8},
        restFrom bytes i = c :: w ++ t → NumberStop t →
        Reads (parseNumber false) bytes (i + 1) (.float bits) (i + 1 + w.length)) ∨
     (isDigit c = true ∧ ∀ {bytes : ByteArray} {i : Nat} {t : List UInt8},
        restFrom bytes i = c :: w ++ t → NumberStop t →
        Reads (parseNumber true) bytes i (.float bits) (i + 1 + w.length)))

end BrilFlow.Json
