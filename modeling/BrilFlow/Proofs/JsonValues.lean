import BrilFlow.Proofs.JsonNumbers

/-! Values read back from their compact text, by induction over `Readable`: integers that fit,
floats that read back and containers nested no deeper than the reader allows. -/
namespace BrilFlow.Json

/-- What may follow a value in compact text: a comma, a closing bracket or brace, or nothing. -/
def ValueEnd (t : List UInt8) : Prop := ∀ b ∈ t.head?, b = 44 ∨ b = 93 ∨ b = 125

theorem ValueEnd.numberStop {t : List UInt8} (h : ValueEnd t) : NumberStop t := by
  intro b hb
  rcases h b hb with rfl | rfl | rfl <;> decide

theorem valueEnd_nil : ValueEnd [] := fun _ h => by cases h

theorem valueEnd_cons {b : UInt8} {t : List UInt8} (h : b = 44 ∨ b = 93 ∨ b = 125) :
    ValueEnd (b :: t) := by
  intro c hc
  cases hc
  exact h

/-- The values the reader gives back from their compact text when `depth` containers may still
be opened: integers of 64 bits, floats read back in place, and containers while one more may
be opened. -/
inductive Readable : Nat → Json → Prop
  | null {depth : Nat} : Readable depth .null
  | bool {depth : Nat} (b : Bool) : Readable depth (.bool b)
  | nat {depth n : Nat} : n ≤ u64Max → Readable depth (.num (.nat n))
  | neg {depth : Nat} {n : Int} : n < 0 → -(Int.pow 2 63) ≤ n → Readable depth (.num (.neg n))
  | float {depth : Nat} {bits : UInt64} : FloatReadsInPlace bits → Readable depth (.num (.float bits))
  | str {depth : Nat} (s : String) : Readable depth (.str s)
  | arr {depth : Nat} {items : List Json} : 1 < depth → (∀ j ∈ items, Readable (depth - 1) j) →
      Readable depth (.arr items)
  | obj {depth : Nat} {fields : List (String × Json)} : 1 < depth →
      (∀ m ∈ fields, Readable (depth - 1) m.2) → Readable depth (.obj fields)

/-- `r` reads `x` from the compact text of `j`, followed by anything that may follow a value. -/
def ReadsText {α : Type} (r : Reader α) (j : Json) (x : α) : Prop :=
  ∀ {bytes : ByteArray} {i : Nat} {t : List UInt8},
    restFrom bytes i = textBytes (compact j) ++ t → ValueEnd t →
    Reads r bytes i x (i + (textBytes (compact j)).length)

/-- `parseAny depth` reads `j` back from its compact text given more fuel than the text has
bytes. -/
def ReadsBack (depth : Nat) (j : Json) : Prop :=
  ∀ fuel, (textBytes (compact j)).length < fuel → ReadsText (parseAny depth fuel) j j

/-- The first byte of a value's text, on which the reader dispatches: never a blank, a comma or
a closing bracket. -/
def ValueStart (w : List UInt8) : Prop :=
  ∃ c rest, w = c :: rest ∧ isBlank c = false ∧ c ≠ 44 ∧ c ≠ 93 ∧ c ≠ 125

theorem textBytes_intercalate (sep x : String) (xs : List String) :
    textBytes (sep.intercalate (x :: xs)) =
      textBytes x ++ xs.flatMap fun y => textBytes sep ++ textBytes y := by
  induction xs generalizing x with
  | nil => simp [String.intercalate_singleton]
  | cons y ys ih =>
    rw [String.intercalate_cons_cons, textBytes_append, textBytes_append, ih y, List.flatMap_cons]
    simp

theorem isBlank_of_isDigit {b : UInt8} (h : isDigit b = true) : isBlank b = false := by
  simp only [isDigit, Bool.and_eq_true, decide_eq_true_eq, UInt8.le_iff_toNat_le] at h
  simp only [isBlank, Bool.or_eq_false_iff, beq_eq_false_iff_ne, ne_eq, ← UInt8.toNat_inj]
  simp at h ⊢
  omega

theorem compactItems_eq (items : List Json) : compactItems items = items.map compact := by
  induction items with
  | nil => rw [compactItems, List.map_nil]
  | cons j js ih => rw [compactItems, ih, List.map_cons]

def memberBytes (m : String × Json) : List UInt8 := textBytes (quote m.1) ++ 58 :: textBytes (compact m.2)

theorem memberBytes_length (k : String) (v : Json) :
    (memberBytes (k, v)).length = (textBytes (quote k)).length + 1 + (textBytes (compact v)).length := by
  simp only [memberBytes, List.length_append, List.length_cons]
  omega

theorem memberBytes_quote (m : String × Json) : ∃ w, memberBytes m = 34 :: w := by
  rw [memberBytes, textBytes_quote]
  exact ⟨_, rfl⟩

theorem compactFields_eq (fields : List (String × Json)) :
    compactFields fields = fields.map fun m => quote m.1 ++ ":" ++ compact m.2 := by
  induction fields with
  | nil => rw [compactFields, List.map_nil]
  | cons m ms ih => rw [compactFields, ih, List.map_cons]

def laterBytes {β : Type} (enc : β → Json) (xs : List β) : List UInt8 :=
  xs.flatMap fun x => 44 :: textBytes (compact (enc x))

theorem textBytes_elements {β : Type} (enc : β → Json) (x : β) (xs : List β) :
    textBytes (",".intercalate (compactItems ((x :: xs).map enc))) =
      textBytes (compact (enc x)) ++ laterBytes enc xs := by
  rw [compactItems_eq, List.map_cons, List.map_cons, textBytes_intercalate, List.flatMap_map,
    List.flatMap_map, laterBytes]
  rfl

theorem textBytes_fields (m : String × Json) (ms : List (String × Json)) :
    textBytes (",".intercalate (compactFields (m :: ms))) =
      memberBytes m ++ ms.flatMap fun y => 44 :: memberBytes y := by
  have colon : textBytes ":" = [58] := rfl
  have comma : textBytes "," = [44] := rfl
  rw [compactFields_eq, List.map_cons, textBytes_intercalate, List.flatMap_map]
  simp only [textBytes_append, colon, comma, memberBytes, List.append_assoc, List.cons_append,
    List.nil_append]

theorem textBytes_arr (items : List Json) :
    textBytes (compact (.arr items)) =
      91 :: textBytes (",".intercalate (compactItems items)) ++ [93] := by
  rw [compact, textBytes_append, textBytes_append]
  rfl

theorem textBytes_obj (fields : List (String × Json)) :
    textBytes (compact (.obj fields)) =
      123 :: textBytes (",".intercalate (compactFields fields)) ++ [125] := by
  rw [compact, textBytes_append, textBytes_append]
  rfl

section Texts

theorem textBytes_null : textBytes (compact .null) = [110, 117, 108, 108] := by
  rw [compact]
  rfl

theorem textBytes_true : textBytes (compact (.bool true)) = [116, 114, 117, 101] := by
  rw [compact]
  rfl

theorem textBytes_false : textBytes (compact (.bool false)) = [102, 97, 108, 115, 101] := by
  rw [compact]
  rfl

theorem textBytes_nat (n : Nat) : textBytes (compact (.num (.nat n))) = digitBytes n := by
  rw [compact, numberText, textBytes_repr]

theorem textBytes_neg {n : Int} (h : n < 0) :
    textBytes (compact (.num (.neg n))) = 45 :: digitBytes n.natAbs := by
  obtain ⟨m, rfl⟩ := Int.exists_eq_neg_ofNat (Int.le_of_lt h)
  cases m with
  | zero => simp at h
  | succ m =>
    rw [compact, numberText, show toString (-((m + 1 : Nat) : Int)) = "-" ++ (m + 1).repr from rfl,
      textBytes_append, textBytes_repr, Int.natAbs_neg, Int.natAbs_natCast]
    rfl

theorem textBytes_float (bits : UInt64) :
    textBytes (compact (.num (.float bits))) = textBytes (numberText (.float bits)) := by
  rw [compact]

theorem digitBytes_cons (n : Nat) : ∃ b w, digitBytes n = b :: w ∧ isDigit b = true := by
  obtain ⟨c, cs, eq⟩ := List.exists_cons_of_ne_nil (Nat.toDigits_ne_nil (n := n) (b := 10))
  refine ⟨_, _, by rw [digitBytes, eq, List.map_cons], isDigit_of_mem_digitBytes (n := n) ?_⟩
  rw [digitBytes, eq, List.map_cons]
  exact List.mem_cons_self

theorem start_of_isDigit {b : UInt8} (h : isDigit b = true) :
    isBlank b = false ∧ b ≠ 44 ∧ b ≠ 93 ∧ b ≠ 125 := by
  refine ⟨isBlank_of_isDigit h, ?_, ?_, ?_⟩ <;> rintro rfl <;> exact absurd h (by decide)

end Texts

section Dispatch

variable {bytes : ByteArray} {i fuel depth : Nat} {t : List UInt8}

theorem reads_parseAny_null (h : restFrom bytes i = [110, 117, 108, 108] ++ t) :
    Reads (parseAny depth (fuel + 1)) bytes i .null (i + 4) := by
  rw [parseAny]
  apply Reads.fixPosition
  rw [Reads.bind_iff (reads_parseWhitespace_at h rfl)]
  simp only
  rw [Reads.bind_iff reads_bump, Reads.bind_iff (reads_parseIdent (w := [117, 108, 108]) (restFrom_succ h))]
  exact reads_pure _

theorem reads_parseAny_true (h : restFrom bytes i = [116, 114, 117, 101] ++ t) :
    Reads (parseAny depth (fuel + 1)) bytes i (.bool true) (i + 4) := by
  rw [parseAny]
  apply Reads.fixPosition
  rw [Reads.bind_iff (reads_parseWhitespace_at h rfl)]
  simp only
  rw [Reads.bind_iff reads_bump, Reads.bind_iff (reads_parseIdent (w := [114, 117, 101]) (restFrom_succ h))]
  exact reads_pure _

theorem reads_parseAny_false (h : restFrom bytes i = [102, 97, 108, 115, 101] ++ t) :
    Reads (parseAny depth (fuel + 1)) bytes i (.bool false) (i + 5) := by
  rw [parseAny]
  apply Reads.fixPosition
  rw [Reads.bind_iff (reads_parseWhitespace_at h rfl)]
  simp only
  rw [Reads.bind_iff reads_bump,
    Reads.bind_iff (reads_parseIdent (w := [97, 108, 115, 101]) (restFrom_succ h))]
  exact reads_pure _

theorem reads_parseAny_str (s : String) (h : restFrom bytes i = textBytes (quote s) ++ t) :
    Reads (parseAny depth (fuel + 1)) bytes i (.str s) (i + (textBytes (quote s)).length) := by
  have quoted := h
  rw [textBytes_quote, List.cons_append] at quoted
  rw [parseAny]
  apply Reads.fixPosition
  rw [Reads.bind_iff (reads_parseWhitespace_at quoted rfl)]
  simp only
  exact reads_bump.bind ((reads_parseString_quote s h).bind (reads_pure _))

theorem reads_parseAny_minus {w : List UInt8} {n : Number} {k : Nat}
    (h : restFrom bytes i = 45 :: w ++ t) (hn : Reads (parseNumber false) bytes (i + 1) n k) :
    Reads (parseAny depth (fuel + 1)) bytes i (.num n) k := by
  rw [parseAny]
  apply Reads.fixPosition
  rw [Reads.bind_iff (reads_parseWhitespace_at h rfl)]
  simp only
  exact reads_bump.bind (hn.bind (reads_pure _))

theorem reads_parseAny_digit {b : UInt8} {w : List UInt8} {n : Number} {k : Nat}
    (h : restFrom bytes i = b :: w ++ t) (digit : isDigit b = true)
    (hn : Reads (parseNumber true) bytes i n k) :
    Reads (parseAny depth (fuel + 1)) bytes i (.num n) k := by
  rw [parseAny]
  apply Reads.fixPosition
  rw [Reads.bind_iff (reads_parseWhitespace_at h (isBlank_of_isDigit digit))]
  -- the bytes that open other shapes are no digits
  split
  · next same => cases same
  iterate 7
    · next same =>
      cases same
      exact absurd digit (by decide)
  · next same =>
    cases same
    rw [if_pos digit]
    exact hn.bind (reads_pure _)

theorem fails_parseAny_minus {w : List UInt8} (h : restFrom bytes i = 45 :: w)
    (hn : Fails (parseNumber false) bytes (i + 1)) : Fails (parseAny depth (fuel + 1)) bytes i := by
  rw [parseAny]
  apply Fails.fixPosition
  refine (reads_parseWhitespace_at h rfl).bind_fails ?_
  simp only
  exact reads_bump.bind_fails hn.bind

theorem fails_parseAny_digit {b : UInt8} {w : List UInt8} (h : restFrom bytes i = b :: w)
    (digit : isDigit b = true) (hn : Fails (parseNumber true) bytes i) :
    Fails (parseAny depth (fuel + 1)) bytes i := by
  rw [parseAny]
  apply Fails.fixPosition
  refine (reads_parseWhitespace_at h (isBlank_of_isDigit digit)).bind_fails ?_
  split
  · next same => cases same
  iterate 7
    · next same =>
      cases same
      exact absurd digit (by decide)
  · next same =>
    cases same
    rw [if_pos digit]
    exact hn.bind

end Dispatch

section Elements

variable {β : Type} {bytes : ByteArray} {t : List UInt8} {loop : Bool → Nat → Reader (List β)}
  {elem : Nat → Reader β} {enc : β → Json} {x : β} {xs : List β}

/-- A loop over the elements of an array: each step reads the next element with `elem` at the
fuel left, or stops at the closing bracket. Both the reader of values of any shape and the
reader against a schema loop so. -/
def ElementLoop (loop : Bool → Nat → Reader (List β)) (elem : Nat → Reader β) : Prop :=
  ∀ first f, loop first (f + 1) = nextElement first (elem f) >>= fun r =>
    r.elim (pure []) fun x => loop false f >>= fun rest => pure (x :: rest)

/-- `elem` reads each of `xs` back from the text of its value, given more fuel than that text has
bytes. -/
def ElementsRead (elem : Nat → Reader β) (enc : β → Json) (xs : List β) : Prop :=
  ∀ x ∈ xs, ValueStart (textBytes (compact (enc x))) ∧
    ∀ f, (textBytes (compact (enc x))).length < f → ReadsText (elem f) (enc x) x

theorem ElementsRead.tail (h : ElementsRead elem enc (x :: xs)) : ElementsRead elem enc xs :=
  fun y hy => h y (List.mem_cons_of_mem _ hy)

theorem laterBytes_cons :
    laterBytes enc (x :: xs) = 44 :: (textBytes (compact (enc x)) ++ laterBytes enc xs) := by
  rw [laterBytes, List.flatMap_cons]
  rfl

theorem valueEnd_later (xs : List β) : ValueEnd (laterBytes enc xs ++ 93 :: t) := by
  cases xs <;> exact valueEnd_cons (by simp)

theorem reads_elements_later (loop_eq : ElementLoop loop elem) : ∀ {xs : List β},
    ElementsRead elem enc xs → ∀ {i fuel : Nat}, restFrom bytes i = laterBytes enc xs ++ 93 :: t →
      (laterBytes enc xs).length < fuel →
      Reads (loop false fuel) bytes i xs (i + (laterBytes enc xs).length)
  | [], _, i, fuel, h, enough => by
    obtain ⟨f, rfl⟩ : ∃ f, fuel = f + 1 := ⟨fuel - 1, by omega⟩
    rw [loop_eq, Reads.bind_iff (reads_nextElement_close false _ h)]
    exact reads_pure _
  | x :: xs, each, i, fuel, h, enough => by
    obtain ⟨⟨c, rest, first, blank, -, close, -⟩, item⟩ := each x List.mem_cons_self
    have len : (laterBytes enc (x :: xs)).length =
        (textBytes (compact (enc x))).length + 1 + (laterBytes enc xs).length := by
      rw [laterBytes_cons, List.length_cons, List.length_append]
      omega
    obtain ⟨f, rfl⟩ : ∃ f, fuel = f + 1 := ⟨fuel - 1, by omega⟩
    have after : restFrom bytes (i + 1) =
        textBytes (compact (enc x)) ++ (laterBytes enc xs ++ 93 :: t) := by
      apply restFrom_succ (c := 44)
      rw [h, laterBytes_cons]
      simp
    have next : restFrom bytes i = 44 :: c :: (rest ++ laterBytes enc xs ++ 93 :: t) := by
      rw [h, laterBytes_cons, first]
      simp
    rw [loop_eq, Reads.bind_iff (reads_nextElement_next next blank close
      (item f (by omega) after (valueEnd_later xs)))]
    simp only [Option.elim]
    refine (reads_elements_later loop_eq each.tail (restFrom_add after) (by omega)).bind ?_
    rw [len, show i + 1 + (textBytes (compact (enc x))).length + (laterBytes enc xs).length =
      i + ((textBytes (compact (enc x))).length + 1 + (laterBytes enc xs).length) by omega]
    exact reads_pure _

theorem reads_elements (loop_eq : ElementLoop loop elem) (each : ElementsRead elem enc xs)
    {i fuel : Nat}
    (h : restFrom bytes i = textBytes (",".intercalate (compactItems (xs.map enc))) ++ 93 :: t)
    (enough : (textBytes (",".intercalate (compactItems (xs.map enc)))).length + 1 < fuel) :
    Reads (loop true fuel) bytes i xs
      (i + (textBytes (",".intercalate (compactItems (xs.map enc)))).length) := by
  obtain ⟨f, rfl⟩ : ∃ f, fuel = f + 1 := ⟨fuel - 1, by omega⟩
  cases xs with
  | nil =>
    have empty : textBytes (",".intercalate (compactItems (([] : List β).map enc))) = [] := by
      rw [List.map_nil, compactItems, String.intercalate_nil]
      rfl
    rw [empty] at h ⊢
    rw [loop_eq, Reads.bind_iff (reads_nextElement_close true _ h)]
    exact reads_pure _
  | cons x xs =>
    rw [textBytes_elements] at h enough ⊢
    obtain ⟨⟨c, rest, first, blank, comma, close, -⟩, item⟩ := each x List.mem_cons_self
    have whole : restFrom bytes i = textBytes (compact (enc x)) ++ (laterBytes enc xs ++ 93 :: t) := by
      rw [h, List.append_assoc]
    have start : restFrom bytes i = c :: (rest ++ (laterBytes enc xs ++ 93 :: t)) := by
      rw [whole, first, List.cons_append]
    rw [loop_eq, Reads.bind_iff (reads_nextElement_first start blank close comma
      (item f (by simp at enough; omega) whole (valueEnd_later xs)))]
    simp only [Option.elim]
    refine (reads_elements_later loop_eq each.tail (restFrom_add whole)
      (by simp at enough ⊢; omega)).bind ?_
    rw [List.length_append, ← Nat.add_assoc]
    exact reads_pure _

end Elements

section Containers

variable {bytes : ByteArray} {fuel depth : Nat} {t : List UInt8}

theorem valueEnd_members (ms : List (String × Json)) :
    ValueEnd ((ms.flatMap fun m => 44 :: memberBytes m) ++ 125 :: t) := by
  cases ms <;> exact valueEnd_cons (by simp)

theorem elementLoop_parseItems (depth : Nat) : ElementLoop (parseItems depth) (parseAny depth) := by
  intro first f
  rw [parseItems]
  congr 1
  funext r
  cases r <;> rfl

theorem reads_member {k : String} {v : Json} (value : ReadsBack depth v) {i f : Nat}
    (h : restFrom bytes i = memberBytes (k, v) ++ t) (ends : ValueEnd t)
    (enough : (textBytes (compact v)).length < f) :
    Reads parseString bytes (i + 1) k (i + (textBytes (quote k)).length) ∧
      Reads (nextValue (parseAny depth f)) bytes (i + (textBytes (quote k)).length) v
        (i + (memberBytes (k, v)).length) := by
  have key : restFrom bytes i = textBytes (quote k) ++ (58 :: textBytes (compact v) ++ t) := by
    rw [h, memberBytes, List.append_assoc]
  have colon := restFrom_add key
  have after : restFrom bytes (i + (textBytes (quote k)).length + 1) =
      textBytes (compact v) ++ t := restFrom_succ colon
  refine ⟨reads_parseString_quote k key, reads_nextValue colon ?_⟩
  rw [memberBytes_length, ← Nat.add_assoc, ← Nat.add_assoc]
  exact value f enough after ends

theorem textBytes_quote_length (k : String) : 2 ≤ (textBytes (quote k)).length := by
  rw [textBytes_quote]
  simp

theorem reads_parseMembers_later : ∀ (ms : List (String × Json)),
    (∀ m ∈ ms, ReadsBack depth m.2) →
    ∀ {i fuel : Nat}, restFrom bytes i = (ms.flatMap fun m => 44 :: memberBytes m) ++ 125 :: t →
      (ms.flatMap fun m => 44 :: memberBytes m).length < fuel →
      Reads (parseMembers depth false fuel) bytes i ms
        (i + (ms.flatMap fun m => 44 :: memberBytes m).length)
  | [], _, i, fuel, h, enough => by
    obtain ⟨f, rfl⟩ : ∃ f, fuel = f + 1 := ⟨fuel - 1, by simp at enough; omega⟩
    rw [parseMembers, Reads.bind_iff (reads_nextKey_close false h)]
    exact reads_pure _
  | (k, v) :: ms, each, i, fuel, h, enough => by
    simp only [List.flatMap_cons, List.length_append, List.length_cons] at h enough ⊢
    have key := textBytes_quote_length k
    have size := memberBytes_length k v
    obtain ⟨f, rfl⟩ : ∃ f, fuel = f + 1 := ⟨fuel - 1, by omega⟩
    have whole : restFrom bytes (i + 1) =
        memberBytes (k, v) ++ ((ms.flatMap fun m => 44 :: memberBytes m) ++ 125 :: t) := by
      apply restFrom_succ (c := 44)
      rw [h]
      simp
    obtain ⟨name, value⟩ := reads_member (each (k, v) List.mem_cons_self) whole
      (valueEnd_members ms) (show (textBytes (compact v)).length < f by omega)
    obtain ⟨w, quote⟩ := memberBytes_quote (k, v)
    rw [parseMembers, Reads.bind_iff (reads_nextKey_next (by rw [h, quote]; rfl) name)]
    simp only
    rw [Reads.bind_iff value]
    refine (reads_parseMembers_later ms (fun m hm => each m (List.mem_cons_of_mem _ hm))
      (restFrom_add whole) (by omega)).bind ?_
    rw [show i + 1 + (memberBytes (k, v)).length + (ms.flatMap fun m => 44 :: memberBytes m).length =
      i + ((memberBytes (k, v)).length + 1 + (ms.flatMap fun m => 44 :: memberBytes m).length) by
        omega]
    exact reads_pure _

theorem reads_parseMembers {fields : List (String × Json)} (each : ∀ m ∈ fields, ReadsBack depth m.2)
    {i fuel : Nat}
    (h : restFrom bytes i = textBytes (",".intercalate (compactFields fields)) ++ 125 :: t)
    (enough : (textBytes (",".intercalate (compactFields fields))).length + 1 < fuel) :
    Reads (parseMembers depth true fuel) bytes i fields
      (i + (textBytes (",".intercalate (compactFields fields))).length) := by
  obtain ⟨f, rfl⟩ : ∃ f, fuel = f + 1 := ⟨fuel - 1, by omega⟩
  cases fields with
  | nil =>
    have empty : textBytes (",".intercalate (compactFields [])) = [] := by
      rw [compactFields, String.intercalate_nil]
      rfl
    rw [empty] at h ⊢
    rw [parseMembers, Reads.bind_iff (reads_nextKey_close true h)]
    exact reads_pure _
  | cons m ms =>
    obtain ⟨k, v⟩ := m
    rw [textBytes_fields] at h enough ⊢
    have size := memberBytes_length k v
    have whole : restFrom bytes i =
        memberBytes (k, v) ++ ((ms.flatMap fun m => 44 :: memberBytes m) ++ 125 :: t) := by
      rw [h, List.append_assoc]
    obtain ⟨name, value⟩ := reads_member (each (k, v) List.mem_cons_self) whole
      (valueEnd_members ms) (show (textBytes (compact v)).length < f by simp at enough; omega)
    obtain ⟨w, quote⟩ := memberBytes_quote (k, v)
    rw [parseMembers, Reads.bind_iff (reads_nextKey_first (by rw [whole, quote]; rfl) name)]
    simp only
    rw [Reads.bind_iff value]
    refine (reads_parseMembers_later ms (fun m hm => each m (List.mem_cons_of_mem _ hm))
      (restFrom_add whole) (by simp at enough ⊢; omega)).bind ?_
    rw [List.length_append, ← Nat.add_assoc]
    exact reads_pure _

theorem reads_parseAny_arr {items : List Json} (deep : 1 < depth)
    (each : ∀ j ∈ items, ReadsBack (depth - 1) j)
    (starts : ∀ j ∈ items, ValueStart (textBytes (compact j))) {i : Nat}
    (h : restFrom bytes i = textBytes (compact (.arr items)) ++ t)
    (enough : (textBytes (compact (.arr items))).length < fuel + 1) :
    Reads (parseAny depth (fuel + 1)) bytes i (.arr items)
      (i + (textBytes (compact (.arr items))).length) := by
  rw [textBytes_arr] at h enough ⊢
  have opening : restFrom bytes i = 91 :: (textBytes (",".intercalate (compactItems items)) ++ 93 :: t) := by
    rw [h]
    simp
  have closing := reads_endSeq (restFrom_add (restFrom_succ opening))
  rw [parseAny]
  apply Reads.fixPosition
  rw [Reads.bind_iff (reads_parseWhitespace_at opening rfl)]
  simp only
  rw [Reads.bind_iff (reads_openContainer deep)]
  have elements : ElementsRead (parseAny (depth - 1)) (fun j => j) items :=
    fun j hj => ⟨starts j hj, each j hj⟩
  have inner := restFrom_succ opening
  rw [← List.map_id' items] at inner
  have contents := reads_elements (elementLoop_parseItems (depth - 1)) elements inner
    (by rw [List.map_id']; simp at enough ⊢; omega)
  rw [List.map_id'] at contents
  refine Reads.closing (contents.map _) ?_
  rwa [show i + 1 + (textBytes (",".intercalate (compactItems items))).length + 1 =
    i + (91 :: textBytes (",".intercalate (compactItems items)) ++ [93]).length by simp; omega]
    at closing

theorem reads_parseAny_obj {fields : List (String × Json)} (deep : 1 < depth)
    (each : ∀ m ∈ fields, ReadsBack (depth - 1) m.2) {i : Nat}
    (h : restFrom bytes i = textBytes (compact (.obj fields)) ++ t)
    (enough : (textBytes (compact (.obj fields))).length < fuel + 1) :
    Reads (parseAny depth (fuel + 1)) bytes i (.obj fields)
      (i + (textBytes (compact (.obj fields))).length) := by
  rw [textBytes_obj] at h enough ⊢
  have opening :
      restFrom bytes i = 123 :: (textBytes (",".intercalate (compactFields fields)) ++ 125 :: t) := by
    rw [h]
    simp
  have closing := reads_endMap (restFrom_add (restFrom_succ opening))
  rw [parseAny]
  apply Reads.fixPosition
  rw [Reads.bind_iff (reads_parseWhitespace_at opening rfl)]
  simp only
  rw [Reads.bind_iff (reads_openContainer deep)]
  refine Reads.closing ((reads_parseMembers each (restFrom_succ opening)
    (by simp at enough ⊢; omega)).map _) ?_
  rwa [show i + 1 + (textBytes (",".intercalate (compactFields fields))).length + 1 =
    i + (123 :: textBytes (",".intercalate (compactFields fields)) ++ [125]).length by simp; omega]
    at closing

end Containers

section Readable

theorem Readable.start {depth : Nat} {j : Json} (hj : Readable depth j) :
    ValueStart (textBytes (compact j)) := by
  cases hj with
  | null => exact ⟨_, _, textBytes_null, by decide⟩
  | bool b => cases b
              · exact ⟨_, _, textBytes_false, by decide⟩
              · exact ⟨_, _, textBytes_true, by decide⟩
  | nat _ =>
    obtain ⟨b, w, digits, digit⟩ := digitBytes_cons _
    exact ⟨b, w, by rw [textBytes_nat, digits], start_of_isDigit digit⟩
  | neg negative _ => exact ⟨_, _, textBytes_neg negative, by decide⟩
  | float back =>
    obtain ⟨c, w, text, minus | digit⟩ := back
    · exact ⟨c, w, by rw [textBytes_float, text], by rw [minus.1]; decide⟩
    · exact ⟨c, w, by rw [textBytes_float, text], start_of_isDigit digit.1⟩
  | str s => exact ⟨_, _, by rw [textBytes_str, textBytes_quote]; rfl, by decide⟩
  | arr _ _ => exact ⟨_, _, textBytes_arr _, by decide⟩
  | obj _ _ => exact ⟨_, _, textBytes_obj _, by decide⟩

/-- Every readable value is read back from its compact text. -/
theorem Readable.readsBack {depth : Nat} {j : Json} (hj : Readable depth j) : ReadsBack depth j := by
  induction hj with
  | null =>
    intro fuel enough bytes i t h _
    obtain ⟨f, rfl⟩ : ∃ f, fuel = f + 1 := ⟨fuel - 1, by omega⟩
    rw [textBytes_null] at h ⊢
    exact reads_parseAny_null h
  | bool b =>
    intro fuel enough bytes i t h _
    obtain ⟨f, rfl⟩ : ∃ f, fuel = f + 1 := ⟨fuel - 1, by omega⟩
    cases b
    · rw [textBytes_false] at h ⊢
      exact reads_parseAny_false h
    · rw [textBytes_true] at h ⊢
      exact reads_parseAny_true h
  | nat fits =>
    intro fuel enough bytes i t h ends
    obtain ⟨f, rfl⟩ : ∃ f, fuel = f + 1 := ⟨fuel - 1, by omega⟩
    rw [textBytes_nat] at h ⊢
    obtain ⟨b, w, digits, digit⟩ := digitBytes_cons _
    exact reads_parseAny_digit (by rw [h, digits]) digit
      (reads_parseNumber_nat _ h ends.numberStop fits)
  | neg negative least =>
    rename_i n
    intro fuel enough bytes i t h ends
    obtain ⟨f, rfl⟩ : ∃ f, fuel = f + 1 := ⟨fuel - 1, by omega⟩
    rw [textBytes_neg negative] at h ⊢
    have pos : n.natAbs ≠ 0 := by omega
    have fits : n.natAbs ≤ Nat.pow 2 63 := by
      rw [show Int.pow 2 63 = 9223372036854775808 from rfl] at least
      rw [show Nat.pow 2 63 = 9223372036854775808 from rfl]
      omega
    have magnitude := reads_parseNumber_neg n.natAbs (restFrom_succ h) ends.numberStop pos fits
    rw [show -(n.natAbs : Int) = n by omega] at magnitude
    rw [List.length_cons, ← Nat.add_assoc, Nat.add_right_comm i]
    exact reads_parseAny_minus h magnitude
  | float back =>
    intro fuel enough bytes i t h ends
    obtain ⟨f, rfl⟩ : ∃ f, fuel = f + 1 := ⟨fuel - 1, by omega⟩
    obtain ⟨c, w, text, ⟨minus, number⟩ | ⟨digit, number⟩⟩ := back
    · rw [textBytes_float, text] at h ⊢
      subst minus
      rw [List.length_cons, ← Nat.add_assoc, Nat.add_right_comm i]
      exact reads_parseAny_minus h (number h ends.numberStop)
    · rw [textBytes_float, text] at h ⊢
      rw [List.length_cons, ← Nat.add_assoc, Nat.add_right_comm i]
      exact reads_parseAny_digit h digit (number h ends.numberStop)
  | str s =>
    intro fuel enough bytes i t h _
    obtain ⟨f, rfl⟩ : ∃ f, fuel = f + 1 := ⟨fuel - 1, by omega⟩
    rw [textBytes_str] at h ⊢
    exact reads_parseAny_str s h
  | arr deep items ih =>
    intro fuel enough bytes i t h _
    obtain ⟨f, rfl⟩ : ∃ f, fuel = f + 1 := ⟨fuel - 1, by omega⟩
    exact reads_parseAny_arr deep ih (fun j hj => (items j hj).start) h enough
  | obj deep _ ih =>
    intro fuel enough bytes i t h _
    obtain ⟨f, rfl⟩ : ∃ f, fuel = f + 1 := ⟨fuel - 1, by omega⟩
    exact reads_parseAny_obj deep ih h enough

end Readable

end BrilFlow.Json
