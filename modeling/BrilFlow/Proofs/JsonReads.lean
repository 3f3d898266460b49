import BrilFlow.Json.Reader

/-! Reading JSON text described from a position: `Reads`, `Throws` and `Fails`, with one lemma per
combinator of the reader and per step of the walk over a text. -/
namespace BrilFlow.Json

variable {α β : Type}

/-- From index `i` of `bytes`, `r` returns `a` and stops at index `j`. -/
def Reads (r : Reader α) (bytes : ByteArray) (i : Nat) (a : α) (j : Nat) : Prop :=
  (r.run bytes).run i = .ok a j

/-- From index `i` of `bytes`, `r` fails with `e` at index `j`. -/
def Throws (r : Reader α) (bytes : ByteArray) (i : Nat) (e : Error) (j : Nat) : Prop :=
  (r.run bytes).run i = .error e j

/-- From index `i` of `bytes`, `r` fails. -/
def Fails (r : Reader α) (bytes : ByteArray) (i : Nat) : Prop :=
  ∃ e j, Throws r bytes i e j

def restFrom (bytes : ByteArray) (i : Nat) : List UInt8 := bytes.data.toList.drop i

section Monad

variable {bytes : ByteArray} {i j k : Nat} {x : Reader α} {f : α → Reader β} {a : α} {b : β}

theorem Reads.bind_iff (hx : Reads x bytes i a j) :
    Reads (x >>= f) bytes i b k ↔ Reads (f a) bytes j b k := by
  unfold Reads at *
  simp only [ReaderT.run_bind, EStateM.run_bind, hx]

theorem Reads.bind (hx : Reads x bytes i a j) (hf : Reads (f a) bytes j b k) :
    Reads (x >>= f) bytes i b k :=
  (Reads.bind_iff hx).mpr hf

/-- A bind whose first part returns runs on as its second part, from where the first stopped. -/
theorem Reads.run_bind (hx : Reads x bytes i a j) :
    ((x >>= f).run bytes).run i = ((f a).run bytes).run j := by
  unfold Reads at hx
  simp only [ReaderT.run_bind, EStateM.run_bind, hx]

theorem Reads.of_bind (h : Reads (x >>= f) bytes i b k) :
    ∃ a j, Reads x bytes i a j ∧ Reads (f a) bytes j b k := by
  unfold Reads at *
  cases hx : (x.run bytes).run i with
  | ok a j =>
    refine ⟨a, j, rfl, ?_⟩
    simpa only [ReaderT.run_bind, EStateM.run_bind, hx] using h
  | error e j =>
    simp only [ReaderT.run_bind, EStateM.run_bind, hx] at h
    cases h

theorem Throws.bind {e : Error} (hx : Throws x bytes i e j) : Throws (x >>= f) bytes i e j := by
  unfold Throws at *
  simp only [ReaderT.run_bind, EStateM.run_bind, hx]

theorem Reads.bind_throws {e : Error} (hx : Reads x bytes i a j) (hf : Throws (f a) bytes j e k) :
    Throws (x >>= f) bytes i e k := by
  unfold Reads Throws at *
  simp only [ReaderT.run_bind, EStateM.run_bind, hx]
  exact hf

theorem Fails.bind (hx : Fails x bytes i) : Fails (x >>= f) bytes i := by
  obtain ⟨e, j, hx⟩ := hx
  exact ⟨e, j, hx.bind⟩

theorem Reads.bind_fails (hx : Reads x bytes i a j) (hf : Fails (f a) bytes j) :
    Fails (x >>= f) bytes i := by
  obtain ⟨e, k, hf⟩ := hf
  exact ⟨e, k, hx.bind_throws hf⟩

theorem reads_pure (a : α) : Reads (pure a) bytes i a i := rfl

theorem Reads.map (hx : Reads x bytes i a j) (g : α → β) : Reads (g <$> x) bytes i (g a) j := by
  rw [map_eq_pure_bind]
  exact hx.bind (reads_pure _)

theorem Throws.map {e : Error} (hx : Throws x bytes i e j) (g : α → β) :
    Throws (g <$> x) bytes i e j := by
  rw [map_eq_pure_bind]
  exact hx.bind

theorem Fails.map (hx : Fails x bytes i) (g : α → β) : Fails (g <$> x) bytes i := by
  rw [map_eq_pure_bind]
  exact hx.bind

theorem reads_read : Reads read bytes i bytes i := rfl

theorem reads_get : Reads get bytes i i i := rfl

theorem reads_set : Reads (set j) bytes i () j := rfl

theorem throws_throw (e : Error) : Throws (throw e : Reader α) bytes i e i := rfl

theorem fails_throw (e : Error) : Fails (throw e : Reader α) bytes i := ⟨e, i, rfl⟩

section Catch

variable {h : Error → Reader α}

theorem Reads.tryCatch (hx : Reads x bytes i a j) (h : Error → Reader α) :
    Reads (MonadExcept.tryCatch x h) bytes i a j := by
  unfold Reads at *
  simp only [ReaderT.run, EStateM.run] at *
  simp only [MonadExcept.tryCatch, tryCatchThe, MonadExceptOf.tryCatch]
  delta EStateM.tryCatch
  simp only [hx]

theorem Throws.tryCatch {e : Error} (hx : Throws x bytes i e j) (hh : Reads (h e) bytes j a k) :
    Reads (MonadExcept.tryCatch x h) bytes i a k := by
  unfold Reads Throws at *
  simp only [ReaderT.run, EStateM.run] at *
  simp only [MonadExcept.tryCatch, tryCatchThe, MonadExceptOf.tryCatch]
  delta EStateM.tryCatch
  simp only [hx]
  exact hh

theorem Throws.tryCatch_throws {e e' : Error} (hx : Throws x bytes i e j)
    (hh : Throws (h e) bytes j e' k) : Throws (MonadExcept.tryCatch x h) bytes i e' k := by
  unfold Throws at *
  simp only [ReaderT.run, EStateM.run] at *
  simp only [MonadExcept.tryCatch, tryCatchThe, MonadExceptOf.tryCatch]
  delta EStateM.tryCatch
  simp only [hx]
  exact hh

theorem Fails.tryCatch (hx : Fails x bytes i) (hh : ∀ e j, Fails (h e) bytes j) :
    Fails (MonadExcept.tryCatch x h) bytes i := by
  obtain ⟨e, j, hx⟩ := hx
  obtain ⟨e', k, he⟩ := hh e j
  exact ⟨e', k, hx.tryCatch_throws he⟩

end Catch

theorem Reads.not_fails (hx : Reads x bytes i a j) (fails : Fails x bytes i) : False := by
  obtain ⟨e, k, he⟩ := fails
  unfold Reads Throws at *
  rw [hx] at he
  cases he

theorem Reads.unique {a' : α} {j' : Nat} (hx : Reads x bytes i a j) (hx' : Reads x bytes i a' j') :
    a = a' ∧ j = j' := by
  unfold Reads at *
  rw [hx] at hx'
  cases hx'
  exact ⟨rfl, rfl⟩

end Monad

section Steps

variable {bytes : ByteArray} {i j k : Nat} {t : List UInt8} {x : Reader α} {a : α}

theorem getElem?_eq_head? (bytes : ByteArray) (i : Nat) :
    bytes[i]? = (restFrom bytes i).head? := by
  rw [restFrom, List.head?_drop, Array.getElem?_toList]
  by_cases h : i < bytes.size
  · rw [getElem?_pos bytes i h, getElem?_pos bytes.data i h]
    rfl
  · rw [getElem?_neg bytes i h, getElem?_neg bytes.data i h]

theorem restFrom_add {w : List UInt8} (h : restFrom bytes i = w ++ t) :
    restFrom bytes (i + w.length) = t := by
  rw [restFrom, ← List.drop_drop, ← restFrom, h, List.drop_left]

theorem restFrom_succ {c : UInt8} (h : restFrom bytes i = c :: t) : restFrom bytes (i + 1) = t :=
  restFrom_add (w := [c]) h

theorem getElem?_of_restFrom {c : UInt8} (h : restFrom bytes i = c :: t) : bytes[i]? = some c := by
  rw [getElem?_eq_head?, h]
  rfl

theorem reads_peekByte : Reads peekByte bytes i bytes[i]? i := rfl

theorem reads_bump : Reads bump bytes i () (i + 1) := rfl

theorem reads_peekByte_of (h : restFrom bytes i = t) : Reads peekByte bytes i t.head? i := by
  rw [← h, ← getElem?_eq_head?]
  exact reads_peekByte

theorem fails_failHere (code : ErrorCode) : Fails (failHere code : Reader α) bytes i :=
  ⟨_, _, rfl⟩

theorem fails_failNext (code : ErrorCode) : Fails (failNext code : Reader α) bytes i :=
  ⟨_, _, rfl⟩

theorem fails_failSchema (code : ErrorCode) : Fails (failSchema code : Reader α) bytes i :=
  ⟨_, _, rfl⟩

theorem skipBlanks_of_head (h : ∀ b ∈ (restFrom bytes i).head?, isBlank b = false) :
    skipBlanks bytes i = i := by
  rw [skipBlanks]
  split
  · next lt =>
    have : isBlank bytes[i] = false :=
      h _ (by rw [← getElem?_eq_head?, getElem?_pos bytes i lt]; rfl)
    simp [this]
  · rfl

theorem reads_parseWhitespace (h : ∀ b ∈ (restFrom bytes i).head?, isBlank b = false) :
    Reads parseWhitespace bytes i (restFrom bytes i).head? i := by
  have ws : Reads parseWhitespace bytes i bytes[skipBlanks bytes i]? (skipBlanks bytes i) := rfl
  rwa [skipBlanks_of_head h, getElem?_eq_head?] at ws

/-- The bytes a text can hold at the start of a value or after one: no blank among them. -/
def Structural (b : UInt8) : Prop := isBlank b = false

theorem reads_parseWhitespace_at {c : UInt8} (h : restFrom bytes i = c :: t)
    (hc : isBlank c = false) : Reads parseWhitespace bytes i (some c) i := by
  have ws : Reads parseWhitespace bytes i (restFrom bytes i).head? i :=
    reads_parseWhitespace (by rw [h]; simpa using hc)
  rwa [h] at ws

theorem reads_parseWhitespace_end (h : restFrom bytes i = []) :
    Reads parseWhitespace bytes i none i := by
  have ws : Reads parseWhitespace bytes i (restFrom bytes i).head? i :=
    reads_parseWhitespace (by rw [h]; simp)
  rwa [h] at ws

theorem reads_parseIdent : ∀ {w : List UInt8} {i : Nat}, restFrom bytes i = w ++ t →
    Reads (parseIdent w) bytes i () (i + w.length)
  | [], _, _ => reads_pure ()
  | c :: w, i, h => by
    unfold parseIdent
    rw [Reads.bind_iff (getElem?_of_restFrom h ▸ reads_peekByte)]
    simp only
    rw [Reads.bind_iff reads_bump, if_pos (beq_self_eq_true c)]
    have rest := reads_parseIdent (w := w) (i := i + 1) (restFrom_succ h)
    rwa [Nat.add_assoc, Nat.add_comm 1] at rest

theorem Reads.fixPosition (hx : Reads x bytes i a j) : Reads (fixPosition x) bytes i a j :=
  hx.tryCatch _

theorem Fails.fixPosition (hx : Fails x bytes i) : Fails (fixPosition x) bytes i := by
  refine hx.tryCatch fun e j => ?_
  obtain ⟨code, _ | index⟩ := e
  · exact reads_get.bind_fails (fails_throw _)
  · exact fails_throw _

theorem Reads.attempt (hx : Reads x bytes i a j) : Reads (attempt x) bytes i (.ok a) j :=
  (hx.map _).tryCatch _

theorem Throws.attempt {e : Error} (hx : Throws x bytes i e j) :
    Reads (attempt x) bytes i (.error e) j :=
  (hx.map _).tryCatch (reads_pure _)

theorem reads_attempt (x : Reader α) : ∃ r j, Reads (attempt x) bytes i r j := by
  cases h : (x.run bytes).run i with
  | ok a j => exact ⟨_, _, Reads.attempt h⟩
  | error e j => exact ⟨_, _, Throws.attempt h⟩

theorem Reads.closing {contents : Reader α} {close : Reader Unit} (hc : Reads contents bytes i a j)
    (hk : Reads close bytes j () k) : Reads (closing contents close) bytes i a k := by
  unfold BrilFlow.Json.closing
  rw [Reads.bind_iff hc.attempt, Reads.bind_iff hk.attempt]
  rfl

/-- A failure inside a container is the container's failure, whatever its closing does. -/
theorem Fails.closing {contents : Reader α} {close : Reader Unit} (hc : Fails contents bytes i) :
    Fails (closing contents close) bytes i := by
  unfold BrilFlow.Json.closing
  obtain ⟨e, j, hc⟩ := hc
  obtain ⟨r, k, hk⟩ : ∃ r k, Reads (attempt close) bytes j r k := reads_attempt close
  exact hc.attempt.bind_fails (hk.bind_fails (fails_throw e))

theorem reads_openContainer {depth : Nat} (h : 1 < depth) :
    Reads (openContainer depth) bytes i (depth - 1) (i + 1) := by
  unfold openContainer
  rw [if_neg (Nat.not_le.mpr h)]
  exact reads_bump.bind (reads_pure _)

theorem fails_openContainer {depth : Nat} (h : depth ≤ 1) : Fails (openContainer depth) bytes i := by
  unfold openContainer
  rw [if_pos h]
  exact fails_failNext _

theorem reads_endSeq (h : restFrom bytes i = 93 :: t) : Reads endSeq bytes i () (i + 1) := by
  unfold endSeq
  rw [Reads.bind_iff (reads_parseWhitespace_at h rfl)]
  exact reads_bump

theorem reads_endMap (h : restFrom bytes i = 125 :: t) : Reads endMap bytes i () (i + 1) := by
  unfold endMap
  rw [Reads.bind_iff (reads_parseWhitespace_at h rfl)]
  exact reads_bump

theorem reads_nextElement_close (first : Bool) (elem : Reader α) (h : restFrom bytes i = 93 :: t) :
    Reads (nextElement first elem) bytes i none i := by
  unfold nextElement
  rw [Reads.bind_iff (reads_parseWhitespace_at h rfl)]
  rfl

theorem reads_nextElement_first {c : UInt8} {elem : Reader α} (h : restFrom bytes i = c :: t)
    (hc : isBlank c = false) (close : c ≠ 93) (comma : c ≠ 44) (he : Reads elem bytes i a j) :
    Reads (nextElement true elem) bytes i (some a) j := by
  unfold nextElement
  rw [Reads.bind_iff (reads_parseWhitespace_at h hc)]
  split
  · next same => cases same; exact absurd rfl close
  · next same => cases same; exact absurd rfl comma
  · exact he.map some
  · next none => cases none

theorem reads_nextElement_next {c : UInt8} {elem : Reader α} (h : restFrom bytes i = 44 :: c :: t)
    (hc : isBlank c = false) (close : c ≠ 93) (he : Reads elem bytes (i + 1) a j) :
    Reads (nextElement false elem) bytes i (some a) j := by
  unfold nextElement
  rw [Reads.bind_iff (reads_parseWhitespace_at h rfl)]
  simp only [Bool.false_eq_true, if_false]
  rw [Reads.bind_iff reads_bump, Reads.bind_iff (reads_parseWhitespace_at (restFrom_succ h) hc)]
  split
  · next same => cases same; exact absurd rfl close
  · exact he.map some
  · next none => cases none

theorem Fails.nextElement_first {c : UInt8} {elem : Reader α} (h : restFrom bytes i = c :: t)
    (hc : isBlank c = false) (close : c ≠ 93) (comma : c ≠ 44) (he : Fails elem bytes i) :
    Fails (nextElement true elem) bytes i := by
  unfold nextElement
  refine (reads_parseWhitespace_at h hc).bind_fails ?_
  split
  · next same => cases same; exact absurd rfl close
  · next same => cases same; exact absurd rfl comma
  · exact he.map some
  · next none => cases none

theorem reads_nextKey_close (first : Bool) (h : restFrom bytes i = 125 :: t) :
    Reads (nextKey first) bytes i none i := by
  unfold nextKey
  rw [Reads.bind_iff (reads_parseWhitespace_at h rfl)]
  rfl

theorem reads_nextKey_first {s : String} (h : restFrom bytes i = 34 :: t)
    (hs : Reads parseString bytes (i + 1) s j) : Reads (nextKey true) bytes i (some s) j := by
  unfold nextKey
  rw [Reads.bind_iff (reads_parseWhitespace_at h rfl)]
  exact reads_bump.bind (hs.map some)

theorem reads_nextKey_next {s : String} (h : restFrom bytes i = 44 :: 34 :: t)
    (hs : Reads parseString bytes (i + 2) s j) : Reads (nextKey false) bytes i (some s) j := by
  unfold nextKey
  rw [Reads.bind_iff (reads_parseWhitespace_at h rfl)]
  simp only [Bool.false_eq_true, if_false]
  rw [Reads.bind_iff reads_bump, Reads.bind_iff (reads_parseWhitespace_at (restFrom_succ h) rfl)]
  exact reads_bump.bind (hs.map some)

theorem reads_nextValue {value : Reader α} (h : restFrom bytes i = 58 :: t)
    (hv : Reads value bytes (i + 1) a j) : Reads (nextValue value) bytes i a j := by
  unfold nextValue
  rw [Reads.bind_iff (reads_parseWhitespace_at h rfl)]
  exact reads_bump.bind hv

theorem Fails.nextValue {value : Reader α} (h : restFrom bytes i = 58 :: t)
    (hv : Fails value bytes (i + 1)) : Fails (nextValue value) bytes i := by
  unfold BrilFlow.Json.nextValue
  exact (reads_parseWhitespace_at h rfl).bind_fails (reads_bump.bind_fails hv)

theorem reads_readOption_some {c : UInt8} {inner : Reader α} (h : restFrom bytes i = c :: t)
    (hc : isBlank c = false) (notNull : c ≠ 110) (hv : Reads inner bytes i a j) :
    Reads (readOption inner) bytes i (some a) j := by
  unfold readOption
  rw [Reads.bind_iff (reads_parseWhitespace_at h hc)]
  split
  · next same => cases same; exact absurd rfl notNull
  · exact hv.map some

-- The equations of the value reader's mutual block are first needed here, by one proof each:
-- generating them is slow, and the many later proofs that unfold these readers would otherwise
-- all wait on that one generation at once.

theorem fails_parseAny_zero (depth : Nat) : Fails (parseAny depth 0) bytes i := by
  rw [parseAny]
  exact fails_failHere _

theorem fails_parseMembers_zero (depth : Nat) (first : Bool) :
    Fails (parseMembers depth first 0) bytes i := by
  rw [parseMembers]
  exact fails_failHere _

theorem fails_parseItems_zero (depth : Nat) (first : Bool) :
    Fails (parseItems depth first 0) bytes i := by
  rw [parseItems]
  exact fails_failHere _

end Steps

end BrilFlow.Json
