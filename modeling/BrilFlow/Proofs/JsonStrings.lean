import BrilFlow.Proofs.JsonReads

/-! Quoted strings read back: each character is written as itself or as an escape, and read back
as its UTF-8 bytes. -/
namespace BrilFlow.Json

open String (utf8EncodeChar)

section Bytes

theorem toList_loop_eq (bs : ByteArray) (i : Nat) (r : List UInt8) :
    ByteArray.toList.loop bs i r = r.reverse ++ bs.data.toList.drop i := by
  fun_induction ByteArray.toList.loop bs i r with
  | case1 i r h ih =>
    have hi : i < bs.data.toList.length := by simpa using h
    rw [ih, List.drop_eq_getElem_cons (l := bs.data.toList) hi]
    simp [ByteArray.get!, h]
  | case2 i r h =>
    rw [List.drop_eq_nil_of_le (by simpa using Nat.le_of_not_lt h)]
    simp

theorem byteArray_toList (bs : ByteArray) : bs.toList = bs.data.toList := by
  simp [ByteArray.toList, toList_loop_eq]

/-- The UTF-8 bytes of a text. -/
def textBytes (s : String) : List UInt8 := s.toUTF8.data.toList

@[simp] theorem textBytes_append (s t : String) :
    textBytes (s ++ t) = textBytes s ++ textBytes t := by
  simp only [textBytes, String.toUTF8_eq_toByteArray, String.toByteArray_append,
    ByteArray.data_append, Array.toList_append]

theorem textBytes_ofList (l : List Char) :
    textBytes (String.ofList l) = l.flatMap utf8EncodeChar := by
  rw [textBytes, String.toUTF8_eq_toByteArray, String.toByteArray_ofList, List.utf8Encode,
    List.toList_data_toByteArray]

theorem textBytes_eq (s : String) : textBytes s = s.toList.flatMap utf8EncodeChar := by
  rw [← textBytes_ofList, String.ofList_toList]

theorem restFrom_toUTF8 (s : String) : restFrom s.toUTF8 0 = textBytes s := List.drop_zero

theorem length_restFrom (bytes : ByteArray) (i : Nat) :
    (restFrom bytes i).length = bytes.size - i := by
  simp [restFrom]

theorem toNat_charOfNat {n : Nat} (h : n < 0xd800) : (Char.ofNat n).toNat = n := by
  have valid : n.isValidChar := Or.inl h
  rw [Char.ofNat, dif_pos valid]
  rfl

theorem utf8EncodeChar_ascii {c : Char} (h : c.toNat < 128) :
    utf8EncodeChar c = [UInt8.ofNat c.toNat] := by
  unfold utf8EncodeChar
  dsimp only
  rw [if_pos (show c.val.toNat ≤ 127 from Nat.le_of_lt_succ h)]
  rfl

theorem utf8EncodeChar_high {c : Char} (h : 127 < c.toNat) :
    ∀ b ∈ utf8EncodeChar c, 128 ≤ b.toNat := by
  unfold utf8EncodeChar
  simp only [Char.toNat] at h
  dsimp only
  repeat' split
  all_goals simp; omega

end Bytes

section Escapes

variable {bytes : ByteArray} {i j : Nat} {t : List UInt8}

/-- The bytes a character is written with inside a string. -/
def escapedBytes (c : Char) : List UInt8 := (escapeChar c).flatMap utf8EncodeChar

theorem textBytes_quote (s : String) :
    textBytes (quote s) = 34 :: s.toList.flatMap escapedBytes ++ [34] := by
  rw [quote, textBytes_ofList, List.flatMap_cons, List.flatMap_append, List.flatMap_assoc]
  rfl

/-- A byte collected as it stands inside a string. -/
def Plain (b : UInt8) : Prop := 32 ≤ b.toNat ∧ b ≠ 34 ∧ b ≠ 92

theorem escapeChar_cases (c : Char) : escapeChar c = [c] ∨ ∃ e, escapeChar c = '\\' :: e := by
  unfold escapeChar
  repeat' split
  all_goals simp

theorem plain_of_escapeChar {c : Char} (h : escapeChar c = [c]) : ∀ b ∈ utf8EncodeChar c, Plain b := by
  have quote : c ≠ '"' := fun e => by subst e; simp [escapeChar] at h
  have backslash : c ≠ '\\' := fun e => by subst e; simp [escapeChar] at h
  have control : 32 ≤ c.toNat := by
    apply Nat.le_of_not_lt
    intro lt
    unfold escapeChar at h
    repeat' split at h
    all_goals simp at h
  by_cases ascii : c.toNat < 128
  · rw [utf8EncodeChar_ascii ascii]
    intro b hb
    rw [List.mem_singleton] at hb
    subst hb
    have low : c.toNat % 256 = c.toNat := Nat.mod_eq_of_lt (by omega)
    refine ⟨by simp [UInt8.toNat_ofNat', low, control], fun e => quote ?_, fun e => backslash ?_⟩
    all_goals
      rw [← Char.ofNat_toNat c]
      have := congrArg UInt8.toNat e
      simp only [UInt8.toNat_ofNat', low, UInt8.reduceToNat] at this
      rw [this]
  · intro b hb
    have := utf8EncodeChar_high (by omega) b hb
    refine ⟨by omega, fun e => ?_, fun e => ?_⟩ <;> subst e <;> simp at this

theorem utf8EncodeChar_hexDigit {k : Nat} (h : k < 16) :
    utf8EncodeChar (hexDigit k) = [UInt8.ofNat (if k < 10 then 48 + k else 87 + k)] := by
  unfold hexDigit
  split
  · rw [utf8EncodeChar_ascii (by rw [toNat_charOfNat (by omega)]; omega), toNat_charOfNat (by omega)]
  · rw [utf8EncodeChar_ascii (by rw [toNat_charOfNat (by omega)]; omega), toNat_charOfNat (by omega)]

theorem hexValue_append_digit (d : List UInt8) {k acc : Nat} (hd : hexValue d = some acc)
    (h : k < 16) :
    hexValue (d ++ [UInt8.ofNat (if k < 10 then 48 + k else 87 + k)]) = some (acc * 16 + k) := by
  unfold hexValue at *
  rw [List.foldlM_append, hd]
  simp only [Option.bind_eq_bind, Option.bind_some, List.foldlM_cons, List.foldlM_nil]
  by_cases hk : k < 10
  · simp only [hk, if_true]
    have low : (48 + k) % 256 = 48 + k := Nat.mod_eq_of_lt (by omega)
    simp only [UInt8.le_iff_toNat_le, UInt8.toNat_ofNat', UInt8.reduceToNat, low]
    rw [if_pos (by simp; omega)]
    simp
  · simp only [hk, if_false]
    have low : (87 + k) % 256 = 87 + k := Nat.mod_eq_of_lt (by omega)
    simp only [UInt8.le_iff_toNat_le, UInt8.toNat_ofNat', UInt8.reduceToNat, low]
    rw [if_neg (by simp; omega), if_pos (by simp; omega)]
    simp

theorem hexValue_control {n : Nat} (h : n < 32) :
    hexValue ([48, 48] ++ utf8EncodeChar (hexDigit (n / 16)) ++ utf8EncodeChar (hexDigit (n % 16))) =
      some n := by
  rw [utf8EncodeChar_hexDigit (by omega), utf8EncodeChar_hexDigit (by omega)]
  have high := hexValue_append_digit [48, 48] (show hexValue [48, 48] = some 0 from rfl)
    (show n / 16 < 16 by omega)
  rw [hexValue_append_digit _ high (by omega)]
  congr 1
  omega

theorem reads_hexEscape {d : List UInt8} {n : Nat} (h : restFrom bytes j = d ++ t)
    (four : d.length = 4) (hv : hexValue d = some n) : Reads hexEscape bytes j n (j + 4) := by
  have size := length_restFrom bytes j
  rw [h, List.length_append, four] at size
  have digits : (bytes.extract j (j + 4)).toList = d := by
    rw [byteArray_toList, ByteArray.data_extract, Array.toList_extract, List.extract_eq_take_drop,
      ← restFrom, h, Nat.add_sub_cancel_left, List.take_left' four]
  unfold hexEscape
  rw [Reads.bind_iff reads_read, Reads.bind_iff reads_get, if_pos (by omega),
    Reads.bind_iff reads_set, digits, hv]
  exact reads_pure n

theorem utf8Bytes_toNat (c : Char) : utf8Bytes c.toNat = utf8EncodeChar c := by
  rw [utf8Bytes, Char.ofNat_toNat, byteArray_toList, ← textBytes, textBytes_eq,
    Char.toString_eq_singleton, String.toList_singleton, List.flatMap_singleton]

theorem reads_unicodeEscape_control {c : Char} (control : c.toNat < 32)
    (h : restFrom bytes j = [48, 48] ++ utf8EncodeChar (hexDigit (c.toNat / 16)) ++
      utf8EncodeChar (hexDigit (c.toNat % 16)) ++ t) :
    Reads unicodeEscape bytes j (utf8EncodeChar c) (j + 4) := by
  have four : ([48, 48] ++ utf8EncodeChar (hexDigit (c.toNat / 16)) ++
      utf8EncodeChar (hexDigit (c.toNat % 16))).length = 4 := by
    simp [utf8EncodeChar_hexDigit (show c.toNat / 16 < 16 by omega),
      utf8EncodeChar_hexDigit (show c.toNat % 16 < 16 by omega)]
  unfold unicodeEscape
  rw [Reads.bind_iff (reads_hexEscape h four (hexValue_control control)), if_neg (by omega),
    if_pos (by omega), utf8Bytes_toNat]
  exact reads_pure _

theorem reads_escape_of_escapeChar {c : Char} {e : List Char} (hc : escapeChar c = '\\' :: e)
    (h : restFrom bytes j = e.flatMap utf8EncodeChar ++ t) :
    Reads escape bytes j (utf8EncodeChar c) (j + (e.flatMap utf8EncodeChar).length) := by
  -- one case per escape: the byte after the backslash names the character
  unfold escapeChar at hc
  repeat' split at hc
  iterate 5
    · rename_i same
      obtain ⟨-, rfl⟩ := List.cons.inj hc
      subst same
      unfold escape
      rw [Reads.bind_iff (getElem?_of_restFrom h ▸ reads_peekByte)]
      simp only
      rw [Reads.bind_iff reads_bump]
      rfl
  iterate 2
    · rename_i code
      obtain ⟨-, rfl⟩ := List.cons.inj hc
      rw [utf8EncodeChar_ascii (by omega), code]
      unfold escape
      rw [Reads.bind_iff (getElem?_of_restFrom h ▸ reads_peekByte)]
      simp only
      rw [Reads.bind_iff reads_bump]
      rfl
  · rename_i control
    obtain ⟨-, rfl⟩ := List.cons.inj hc
    have five : (List.flatMap utf8EncodeChar
        ['u', '0', '0', hexDigit (c.toNat / 16), hexDigit (c.toNat % 16)]).length = 1 + 4 := by
      simp [utf8EncodeChar_hexDigit (show c.toNat / 16 < 16 by omega),
        utf8EncodeChar_hexDigit (show c.toNat % 16 < 16 by omega)]
      rfl
    simp only [List.flatMap_cons, List.flatMap_nil, List.append_nil] at h
    have digits : restFrom bytes j = 117 :: ([48, 48] ++ utf8EncodeChar (hexDigit (c.toNat / 16)) ++
        utf8EncodeChar (hexDigit (c.toNat % 16)) ++ t) := by
      rw [h]
      rfl
    unfold escape
    rw [Reads.bind_iff (getElem?_of_restFrom digits ▸ reads_peekByte)]
    simp only
    rw [Reads.bind_iff reads_bump]
    rw [five, ← Nat.add_assoc]
    exact reads_unicodeEscape_control control (restFrom_succ digits)
  · obtain ⟨rfl, -⟩ := List.cons.inj hc
    contradiction

end Escapes

section Strings

variable {bytes : ByteArray} {i : Nat} {t : List UInt8} {out : Array UInt8} {k need : Nat}

theorem reads_stringBytes_plain : ∀ {w : List UInt8} {acc : Array UInt8} {i : Nat},
    (∀ b ∈ w, Plain b) → restFrom bytes i = w ++ t →
    (∀ fuel, need ≤ fuel →
      Reads (stringBytes (acc ++ w.toArray) fuel) bytes (i + w.length) out k) →
    ∀ fuel, need + w.length ≤ fuel → Reads (stringBytes acc fuel) bytes i out k
  | [], acc, i, _, _, hr, fuel, hf => by simpa using hr fuel hf
  | b :: w, acc, i, plain, h, hr, fuel, hf => by
    obtain ⟨f, rfl⟩ : ∃ f, fuel = f + 1 := ⟨fuel - 1, by simp at hf; omega⟩
    have hb := plain b List.mem_cons_self
    rw [stringBytes, Reads.bind_iff (getElem?_of_restFrom h ▸ reads_peekByte)]
    simp only
    rw [Reads.bind_iff reads_bump, if_neg (by simpa using hb.2.1), if_neg (by simpa using hb.2.2),
      if_neg (by rw [UInt8.lt_iff_toNat_lt]; exact Nat.not_lt.mpr hb.1)]
    refine reads_stringBytes_plain (fun x hx => plain x (List.mem_cons_of_mem _ hx))
      (restFrom_succ h) (fun fuel' hf' => ?_) f (by simp at hf; omega)
    rw [show acc.push b ++ w.toArray = acc ++ (b :: w).toArray by simp,
      show i + 1 + w.length = i + (b :: w).length by simp; omega]
    exact hr fuel' hf'

theorem reads_stringBytes_escape {acc : Array UInt8} {e dec : List UInt8}
    (h : restFrom bytes i = 92 :: e ++ t) (he : Reads escape bytes (i + 1) dec (i + 1 + e.length))
    (hr : ∀ fuel, need ≤ fuel →
      Reads (stringBytes (acc ++ dec.toArray) fuel) bytes (i + 1 + e.length) out k) :
    ∀ fuel, need + 1 ≤ fuel → Reads (stringBytes acc fuel) bytes i out k := by
  intro fuel hf
  obtain ⟨f, rfl⟩ : ∃ f, fuel = f + 1 := ⟨fuel - 1, by omega⟩
  rw [stringBytes, Reads.bind_iff (getElem?_of_restFrom h ▸ reads_peekByte)]
  simp only
  rw [Reads.bind_iff reads_bump, if_neg (by decide), if_pos (beq_self_eq_true _),
    Reads.bind_iff he]
  exact hr f (by omega)

theorem reads_stringBytes_char (c : Char) {acc : Array UInt8}
    (h : restFrom bytes i = escapedBytes c ++ t)
    (hr : ∀ fuel, need ≤ fuel → Reads (stringBytes (acc ++ (utf8EncodeChar c).toArray) fuel) bytes
      (i + (escapedBytes c).length) out k) :
    ∀ fuel, need + (escapedBytes c).length ≤ fuel → Reads (stringBytes acc fuel) bytes i out k := by
  rcases escapeChar_cases c with plain | ⟨e, escaped⟩
  · have same : escapedBytes c = utf8EncodeChar c := by
      rw [escapedBytes, plain, List.flatMap_singleton]
    rw [same] at h hr ⊢
    exact reads_stringBytes_plain (plain_of_escapeChar plain) h hr
  · have written : escapedBytes c = 92 :: e.flatMap utf8EncodeChar := by
      rw [escapedBytes, escaped, List.flatMap_cons]
      rfl
    rw [written] at h hr ⊢
    intro fuel hf
    refine reads_stringBytes_escape h (reads_escape_of_escapeChar escaped (restFrom_succ h))
      (fun f hf' => ?_) fuel (show need + 1 ≤ fuel by simp at hf; omega)
    rw [Nat.add_assoc, Nat.add_comm 1]
    exact hr f hf'

/-- The characters of a string, as written, are read back as its UTF-8 bytes up to the closing
quote. -/
theorem reads_stringBytes_chars : ∀ (cs : List Char) (acc : Array UInt8) {i : Nat},
    restFrom bytes i = cs.flatMap escapedBytes ++ 34 :: t →
    ∀ fuel, (cs.flatMap escapedBytes).length + 1 ≤ fuel →
      Reads (stringBytes acc fuel) bytes i (acc ++ (cs.flatMap utf8EncodeChar).toArray)
        (i + (cs.flatMap escapedBytes).length + 1)
  | [], acc, i, h, fuel, hf => by
    obtain ⟨f, rfl⟩ : ∃ f, fuel = f + 1 := ⟨fuel - 1, by simp at hf; omega⟩
    rw [stringBytes, Reads.bind_iff (getElem?_of_restFrom h ▸ reads_peekByte)]
    simp only
    rw [Reads.bind_iff reads_bump, if_pos (beq_self_eq_true _)]
    simpa using reads_pure acc
  | c :: cs, acc, i, h, fuel, hf => by
    rw [List.flatMap_cons, List.append_assoc] at h
    have rest := reads_stringBytes_chars cs (acc ++ (utf8EncodeChar c).toArray) (restFrom_add h)
    refine reads_stringBytes_char c h (fun f hf' => ?_) fuel
      (show (cs.flatMap escapedBytes).length + 1 + (escapedBytes c).length ≤ fuel by
        simp only [List.flatMap_cons, List.length_append] at hf; omega)
    rw [List.flatMap_cons, ← List.append_toArray, ← Array.append_assoc, List.flatMap_cons,
      List.length_append, ← Nat.add_assoc]
    exact rest f hf'

theorem fromUTF8?_toUTF8 (s : String) : String.fromUTF8? s.toUTF8 = some s := by
  rw [String.fromUTF8?, String.toUTF8_eq_toByteArray, dif_pos s.isValidUTF8]
  rfl

theorem reads_parseString (s : String)
    (h : restFrom bytes i = s.toList.flatMap escapedBytes ++ 34 :: t) :
    Reads parseString bytes i s (i + (s.toList.flatMap escapedBytes).length + 1) := by
  have size := length_restFrom bytes i
  rw [h] at size
  simp only [List.length_append, List.length_cons] at size
  unfold parseString
  rw [Reads.bind_iff reads_read, Reads.bind_iff (reads_stringBytes_chars s.toList #[] h _ (by omega))]
  have bytes : ByteArray.mk (#[] ++ (s.toList.flatMap utf8EncodeChar).toArray) = s.toUTF8 := by
    rw [Array.empty_append, ← textBytes_eq, textBytes, Array.toArray_toList]
  rw [bytes, fromUTF8?_toUTF8]
  exact reads_pure s

/-- A quoted string, past its opening quote, is read back to the end of its closing quote. -/
theorem reads_parseString_quote (s : String) (h : restFrom bytes i = textBytes (quote s) ++ t) :
    Reads parseString bytes (i + 1) s (i + (textBytes (quote s)).length) := by
  rw [textBytes_quote] at h ⊢
  have after : restFrom bytes (i + 1) = s.toList.flatMap escapedBytes ++ 34 :: t := by
    apply restFrom_succ (c := 34)
    rw [h]
    simp
  have read := reads_parseString s after
  rwa [show i + 1 + (s.toList.flatMap escapedBytes).length + 1 =
      i + ((34 : UInt8) :: s.toList.flatMap escapedBytes ++ [34]).length by simp; omega] at read

-- The first use of the equations of the writer's mutual block: generating them is slow, and the
-- many later proofs about the texts of values would otherwise all wait on it at once.
theorem textBytes_str (s : String) : textBytes (compact (.str s)) = textBytes (quote s) := by
  rw [compact]

end Strings

end BrilFlow.Json
