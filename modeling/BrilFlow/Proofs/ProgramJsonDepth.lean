import BrilFlow.Proofs.ProgramJsonText

/-! Types nested too deep for the reader: a return type of pointers 125 levels deep makes the whole
program text fail, the failure carried outward member by member. -/
namespace BrilFlow

open BrilFlow.Json

section Failing

variable {α σ : Type} {bytes : ByteArray} {i depth : Nat} {t u : List UInt8}
  {member : σ → String → Reader σ}

theorem Fails.readContainer_obj (deep : 1 < depth) {expected : String}
    {viaSeq : Option (Nat → Reader α)} {v : Nat → Reader α} (h : restFrom bytes i = 123 :: t)
    (hv : Fails (v (depth - 1)) bytes (i + 1)) :
    Fails (readContainer depth expected viaSeq (some v)) bytes i := by
  unfold readContainer
  apply Fails.fixPosition
  refine (reads_parseWhitespace_at h rfl).bind_fails ?_
  cases viaSeq <;>
  · simp only
    exact (reads_openContainer deep).bind_fails (Fails.closing hv)

theorem Fails.readSeq (deep : 1 < depth) {elem : Nat → Reader α} {c : UInt8}
    (h : restFrom bytes i = 91 :: c :: t) (hc : isBlank c = false) (close : c ≠ 93) (comma : c ≠ 44)
    (he : Fails (elem (depth - 1)) bytes (i + 1)) : Fails (readSeq depth elem) bytes i := by
  unfold BrilFlow.Json.readSeq
  refine reads_read.bind_fails ?_
  unfold readContainer
  apply Fails.fixPosition
  refine (reads_parseWhitespace_at h rfl).bind_fails ?_
  simp only
  refine (reads_openContainer deep).bind_fails (Fails.closing ?_)
  rw [seqElements]
  exact (Fails.nextElement_first (restFrom_succ h) hc close comma he).bind

theorem Fails.readField {r : Reader α} (name : String) (h : restFrom bytes i = 58 :: t)
    (hr : Fails r bytes (i + 1)) : Fails (readField name none r) bytes i := by
  unfold BrilFlow.readField
  exact (Fails.nextValue h hr).bind

theorem Fails.readOption {inner : Reader α} {c : UInt8} (h : restFrom bytes i = c :: t)
    (hc : isBlank c = false) (notNull : c ≠ 110) (hv : Fails inner bytes i) :
    Fails (readOption inner) bytes i := by
  unfold BrilFlow.Json.readOption
  refine (reads_parseWhitespace_at h hc).bind_fails ?_
  split
  · next same => cases same; exact absurd rfl notNull
  · exact hv.map some

theorem key_of_memberBytes {k : String} {v : Json} (h : restFrom bytes i = memberBytes (k, v) ++ u) :
    Reads parseString bytes (i + 1) k (i + (textBytes (quote k)).length) ∧
      restFrom bytes (i + (textBytes (quote k)).length) = 58 :: (textBytes (compact v) ++ u) := by
  have key : restFrom bytes i = textBytes (quote k) ++ 58 :: (textBytes (compact v) ++ u) := by
    rw [h, memberBytes]
    simp
  exact ⟨reads_parseString_quote k key, restFrom_add key⟩

theorem fails_go_first {acc : σ} {k : String} {v : Json} {fuel : Nat}
    (fails : ∀ {j : Nat}, restFrom bytes j = 58 :: (textBytes (compact v) ++ u) →
      Fails (member acc k) bytes j)
    (h : restFrom bytes i = memberBytes (k, v) ++ u) :
    Fails (readMembers.go member acc true (fuel + 1)) bytes i := by
  obtain ⟨name, colon⟩ := key_of_memberBytes h
  obtain ⟨w, quote⟩ := memberBytes_quote (k, v)
  rw [readMembers.go]
  refine (reads_nextKey_first (by rw [h, quote]; rfl) name).bind_fails ?_
  exact (fails colon).bind

theorem fails_go_next {acc : σ} {k : String} {v : Json} {fuel : Nat}
    (fails : ∀ {j : Nat}, restFrom bytes j = 58 :: (textBytes (compact v) ++ u) →
      Fails (member acc k) bytes j)
    (h : restFrom bytes i = 44 :: (memberBytes (k, v) ++ u)) :
    Fails (readMembers.go member acc false (fuel + 1)) bytes i := by
  obtain ⟨name, colon⟩ := key_of_memberBytes (restFrom_succ h)
  obtain ⟨w, quote⟩ := memberBytes_quote (k, v)
  rw [readMembers.go]
  refine (reads_nextKey_next (by rw [h, quote]; rfl) name).bind_fails ?_
  exact (fails colon).bind

/-- Members after the first read one after another, each after its comma, then one whose value
fails. -/
theorem MembersRead.fails_later {acc mid : σ} {ms : List (String × Json)}
    (run : MembersRead member acc ms mid) {k : String} {v : Json}
    (fails : ∀ {j : Nat}, restFrom bytes j = 58 :: (textBytes (compact v) ++ u) →
      Fails (member mid k) bytes j) {fuel : Nat}
    (h : restFrom bytes i =
      (ms.flatMap fun m => 44 :: memberBytes m) ++ 44 :: (memberBytes (k, v) ++ u))
    (enough : (ms.flatMap fun m => 44 :: memberBytes m).length < fuel) :
    Fails (readMembers.go member acc false fuel) bytes i := by
  obtain ⟨f, rfl⟩ : ∃ f, fuel = f + 1 + ms.length :=
    ⟨fuel - 1 - ms.length, by have := length_le_laterMembers ms; omega⟩
  unfold Fails Throws
  rw [run.go_later (valueEnd_cons (by simp)) h]
  exact fails_go_next fails (restFrom_add h)

theorem MembersRead.fails_next {acc mid : σ} {ms : List (String × Json)}
    (run : MembersRead member acc ms mid) {k : String} {v : Json}
    (fails : ∀ {j : Nat}, restFrom bytes j = 58 :: (textBytes (compact v) ++ u) →
      Fails (member mid k) bytes j)
    (h : restFrom bytes i = textBytes (",".intercalate (compactFields (ms ++ [(k, v)]))) ++ u) :
    Fails (readMembers member acc) bytes i := by
  unfold readMembers
  refine reads_read.bind_fails ?_
  cases run with
  | nil acc =>
    rw [List.nil_append, textBytes_fields, List.flatMap_nil, List.append_nil] at h
    exact fails_go_first fails h
  | cons next hm rest =>
    rename_i k' v' ms
    rw [List.cons_append, textBytes_fields, List.flatMap_append] at h
    have whole : restFrom bytes i = memberBytes (k', v') ++
        ((ms.flatMap fun m => 44 :: memberBytes m) ++ 44 :: (memberBytes (k, v) ++ u)) := by
      rw [h]
      simp
    have size := length_restFrom bytes i
    rw [whole, List.length_append, List.length_append, List.length_cons] at size
    unfold Fails Throws
    rw [hm.go_first whole (valueEnd_members_append ms (valueEnd_cons (by simp)))]
    exact rest.fails_later fails (restFrom_add whole) (by
      have := memberBytes_length k' v'
      omega)

end Failing

/-- `ptr<…ptr<int>…>`, `k` levels deep. -/
def Ty.pointers : Nat → Ty
  | 0 => .primitive "int"
  | k + 1 => Ty.param "ptr" (Ty.pointers k)

theorem Ty.textBytes_pointers_succ (k : Nat) :
    textBytes (compact (Ty.pointers (k + 1)).toJson) =
      123 :: memberBytes ("ptr", (Ty.pointers k).toJson) ++ [125] := by
  rw [Ty.pointers, Ty.param, Ty.toJson, Ty.paramsToJson, Ty.paramsToJson, textBytes_obj,
    textBytes_fields, List.flatMap_nil, List.append_nil]

section Pointers

variable {bytes : ByteArray}

/-- A pointer type `k` levels deep fails where fewer than `k + 1` containers may be opened: each
level opens one, and the last must open where none is left. -/
theorem fails_parseAny_pointers : ∀ (k : Nat) {depth fuel i : Nat} {t : List UInt8}, 1 ≤ k → depth ≤ k →
    restFrom bytes i = textBytes (compact (Ty.pointers k).toJson) ++ t →
    Fails (parseAny depth fuel) bytes i
  | 0, _, _, _, _, one, _, _ => absurd one (by decide)
  | k + 1, depth, fuel, i, t, _, shallow, h => by
    rw [Ty.textBytes_pointers_succ, List.cons_append] at h
    obtain ⟨f, rfl⟩ | rfl : (∃ f, fuel = f + 1) ∨ fuel = 0 := by
      cases fuel <;> simp
    · rw [parseAny]
      apply Fails.fixPosition
      refine (reads_parseWhitespace_at h rfl).bind_fails ?_
      simp only
      by_cases last : depth ≤ 1
      · exact (fails_openContainer last).bind
      refine (reads_openContainer (Nat.lt_of_not_le last)).bind_fails (Fails.closing (Fails.map ?_ _))
      -- the one member: its key, then a value nested one level less
      obtain ⟨g, rfl⟩ | rfl : (∃ g, f = g + 1) ∨ f = 0 := by
        cases f <;> simp
      · rw [parseMembers]
        have member : restFrom bytes (i + 1) =
            memberBytes ("ptr", (Ty.pointers k).toJson) ++ 125 :: t := by
          rw [restFrom_succ h]
          simp
        obtain ⟨name, colon⟩ := key_of_memberBytes member
        obtain ⟨w, quote⟩ := memberBytes_quote ("ptr", (Ty.pointers k).toJson)
        refine (reads_nextKey_first (by rw [member, quote]; rfl) name).bind_fails ?_
        simp only
        refine Fails.bind (Fails.nextValue colon ?_)
        exact fails_parseAny_pointers k (by omega) (by omega) (restFrom_succ colon)
      · exact fails_parseMembers_zero _ _
    · exact fails_parseAny_zero _

end Pointers

section Deep

variable {bytes : ByteArray} {i depth : Nat} {t : List UInt8}

theorem fails_readTy_pointers {k : Nat} (one : 1 ≤ k) (shallow : depth ≤ k)
    (h : restFrom bytes i = textBytes (compact (Ty.pointers k).toJson) ++ t) :
    Fails (readTy depth) bytes i := by
  unfold readTy Json.value
  exact (reads_read.bind_fails (fails_parseAny_pointers k one shallow h)).bind

theorem fails_readFunction {f : Function} {ty : Ty} (deep : 1 < depth) (noArgs : f.args = [])
    (ret : f.ret = some ty) (start : ∃ w, textBytes (compact ty.toJson) = 123 :: w)
    (hty : ∀ {j : Nat} {u : List UInt8}, restFrom bytes j = textBytes (compact ty.toJson) ++ u →
      Fails (readTy (depth - 1)) bytes j)
    (h : restFrom bytes i = textBytes (compact f.toJson) ++ t) : Fails (readFunction depth) bytes i := by
  obtain ⟨w, tyText⟩ := start
  have members : f.toJson = .obj ([("name", .str f.name)] ++ [("type", ty.toJson)] ++
      [("instrs", .arr (f.instrs.map Instr.toJson))]) := by
    rw [Function.toJson, noArgs, ret]
    rfl
  rw [members, textBytes_obj, List.cons_append] at h
  unfold readFunction
  refine Fails.readContainer_obj deep h (Fails.bind ?_)
  refine MembersRead.fails_next (k := "type") (v := ty.toJson)
    (u := 44 :: memberBytes ("instrs", .arr (f.instrs.map Instr.toJson)) ++ 125 :: t)
    (.cons (k := "name") (v := .str f.name) { name := some f.name } ?name (.nil _)) ?type ?text
  case name =>
    simp only
    exact ReadsMember.bind_pure (ReadsText.readField (readsText_readString _ _) "name") _
  case type =>
    intro j colon
    simp only
    refine (Fails.readField "type" colon (Fails.readOption (c := 123)
      (t := w ++ (44 :: memberBytes ("instrs", .arr (f.instrs.map Instr.toJson)) ++ 125 :: t))
      ?_ rfl (by decide) ?_)).bind
    · rw [restFrom_succ colon, tyText, List.cons_append]
    · exact hty (restFrom_succ colon)
  case text =>
    rw [restFrom_succ h, List.append_assoc]
    simp [textBytes_fields]

theorem fails_readProgram {p : Program} {f : Function} {fs : List Function} (deep : 2 < depth)
    (first : p.functions = f :: fs)
    (hf : ∀ {j : Nat} {u : List UInt8}, restFrom bytes j = textBytes (compact f.toJson) ++ u →
      Fails (readFunction (depth - 2)) bytes j)
    (h : restFrom bytes i = textBytes (compact p.toJson) ++ t) : Fails (readProgram depth) bytes i := by
  have members : p.toJson = .obj ([] ++ [("functions", .arr ((f :: fs).map Function.toJson))]) := by
    rw [Program.toJson, first]
    rfl
  rw [members, textBytes_obj, List.cons_append] at h
  unfold readProgram
  refine Fails.readContainer_obj (by omega) h (Fails.bind ?_)
  refine MembersRead.fails_next (k := "functions") (v := .arr ((f :: fs).map Function.toJson))
    (u := 125 :: t) (.nil none) ?function ?text
  case function =>
    intro j colon
    simp only
    obtain ⟨w, start⟩ : ∃ w, textBytes (compact f.toJson) = 123 :: w := by
      rw [Function.toJson, textBytes_obj]
      exact ⟨_, rfl⟩
    have arr : restFrom bytes (j + 1) =
        91 :: 123 :: (w ++ laterBytes Function.toJson fs ++ 93 :: 125 :: t) := by
      rw [restFrom_succ colon, textBytes_arr, textBytes_elements, start]
      simp
    refine Fails.readField "functions" colon
      (Fails.readSeq (by omega) arr rfl (by decide) (by decide) ?_)
    rw [show depth - 1 - 1 = depth - 2 by omega]
    refine hf (u := laterBytes Function.toJson fs ++ 93 :: 125 :: t) ?_
    rw [restFrom_succ arr, start]
    simp
  case text =>
    rw [restFrom_succ h]
    simp [textBytes_fields]

end Deep

section Whole

variable {α : Type}

theorem readAll_ne_ok {r : Reader α} {text : String} (h : Fails r text.toUTF8 0) (x : α) :
    readAll r text ≠ .ok x := by
  intro ok
  obtain ⟨j, hr, -⟩ := reads_of_readAll ok
  exact hr.not_fails h

/-- A program whose first function takes no arguments and returns a pointer type nested 125
levels or more is refused from its own text. -/
theorem Program.ofJsonText_pointerReturn_ne_ok {p : Program} {f : Function} {fs : List Function}
    {k : Nat} (first : p.functions = f :: fs) (noArgs : f.args = [])
    (ret : f.ret = some (Ty.pointers k)) (deep : 125 ≤ k) (x : Program) :
    Program.ofJsonText (compact p.toJson) ≠ .ok x := by
  obtain ⟨k, rfl⟩ : ∃ k', k = k' + 1 := ⟨k - 1, by omega⟩
  apply readAll_ne_ok
  refine fails_readProgram (t := []) (show 2 < depthLimit by decide) first ?_
    (by rw [restFrom_toUTF8, List.append_nil])
  intro j u hj
  refine fails_readFunction (show 1 < depthLimit - 2 by decide) noArgs ret
    ⟨_, Ty.textBytes_pointers_succ k⟩ ?_ hj
  intro j u hj
  -- the program, its list of functions and the function leave 125 containers to the type
  have left : depthLimit - 2 - 1 = 125 := rfl
  exact fails_readTy_pointers (by omega) (by omega) hj

/-- One function, `main`, returning a pointer type 125 levels deep. -/
def deepReturn : Program := { functions := [{ name := "main", ret := some (Ty.pointers 125) }] }

theorem deepReturn_not_read_back :
    Program.ofJsonText (compact deepReturn.toJson) ≠ .ok deepReturn :=
  Program.ofJsonText_pointerReturn_ne_ok rfl rfl rfl (by decide) deepReturn

end Whole

end BrilFlow
