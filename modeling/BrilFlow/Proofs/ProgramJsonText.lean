import BrilFlow.Proofs.ProgramJsonValues
import BrilFlow.Program.JsonText

/-! Programs read back from their compact JSON text, record by record, when their types nest at
most 122 deep, their integers fit and their floats read back. -/
namespace BrilFlow

open BrilFlow.Json

section Values

variable {α : Type} {bytes : ByteArray} {i depth : Nat} {t w : List UInt8}

theorem length_lt_of_restFrom (h : restFrom bytes i = w ++ t) : w.length < bytes.size + 1 := by
  have whole := length_restFrom bytes i
  rw [h, List.length_append] at whole
  omega

theorem Json.Readable.readsText_value {j : Json} (hj : Readable depth j) :
    ReadsText (Json.value depth) j j := by
  intro bytes i t h ends
  unfold Json.value
  rw [Reads.bind_iff reads_read]
  exact hj.readsBack _ (length_lt_of_restFrom h) h ends

theorem Ty.Sorted.readsText {ty : Ty} (h : ty.Sorted) (deep : ty.nesting < depth) :
    ReadsText (readTy depth) ty.toJson ty := by
  intro bytes i t hb ends
  unfold readTy
  rw [Reads.bind_iff ((h.readable deep).readsText_value hb ends), h.ofJson?_toJson]
  exact reads_pure _

theorem Ty.JsonReadable.readsText {ty : Ty} (h : ty.JsonReadable) (deep : 122 < depth) :
    ReadsText (readTy depth) ty.toJson ty :=
  h.1.readsText (by have := h.2; omega)

theorem Instr.JsonReadable.readsText {ins : Instr} (h : ins.JsonReadable) (deep : 123 < depth) :
    ReadsText (readInstr depth) ins.toJson ins := by
  intro bytes i t hb ends
  unfold readInstr
  rw [Reads.bind_iff ((Instr.JsonReadable.readable h deep).readsText_value hb ends),
    Instr.ofJson?_toJson h]
  exact reads_pure _

theorem readsText_readString (s expected : String) : ReadsText (readString expected) (.str s) s := by
  intro bytes i t h _
  rw [textBytes_str] at h ⊢
  have quoted := h
  rw [textBytes_quote, List.cons_append] at quoted
  unfold readString
  apply Reads.fixPosition
  rw [Reads.bind_iff (reads_parseWhitespace_at quoted rfl)]
  exact reads_bump.bind (reads_parseString_quote s h)

theorem Ty.textBytes_start (ty : Ty) :
    ∃ c w, textBytes (compact ty.toJson) = c :: w ∧ isBlank c = false ∧ c ≠ 110 := by
  cases ty with
  | primitive name =>
    exact ⟨34, _, by rw [Ty.toJson, textBytes_str, textBytes_quote, List.cons_append], rfl, by decide⟩
  | parameterized params =>
    exact ⟨123, _, by rw [Ty.toJson, textBytes_obj, List.cons_append], rfl, by decide⟩

theorem ReadsText.readOption {r : Reader α} {j : Json} {x : α} (hr : ReadsText r j x)
    (starts : ∃ c w, textBytes (compact j) = c :: w ∧ isBlank c = false ∧ c ≠ 110) :
    ReadsText (readOption r) j (some x) := by
  intro bytes i t h ends
  obtain ⟨c, w, first, blank, notNull⟩ := starts
  exact reads_readOption_some (by rw [h, first, List.cons_append]) blank notNull (hr h ends)

end Values

section Containers

variable {α : Type} {bytes : ByteArray} {i depth : Nat} {t w : List UInt8}

theorem reads_readContainer_obj (deep : 1 < depth) {expected : String}
    {viaSeq : Option (Nat → Reader α)} {v : Nat → Reader α} {x : α}
    (h : restFrom bytes i = 123 :: (w ++ 125 :: t))
    (hv : Reads (v (depth - 1)) bytes (i + 1) x (i + 1 + w.length)) :
    Reads (readContainer depth expected viaSeq (some v)) bytes i x (i + 1 + w.length + 1) := by
  unfold readContainer
  apply Reads.fixPosition
  rw [Reads.bind_iff (reads_parseWhitespace_at h rfl)]
  have close : restFrom bytes (i + 1 + w.length) = 125 :: t := restFrom_add (restFrom_succ h)
  cases viaSeq <;>
  · simp only
    rw [Reads.bind_iff (reads_openContainer deep)]
    exact Reads.closing hv (reads_endMap close)

theorem reads_readContainer_arr (deep : 1 < depth) {expected : String}
    {v : Nat → Reader α} {viaMap : Option (Nat → Reader α)} {x : α}
    (h : restFrom bytes i = 91 :: (w ++ 93 :: t))
    (hv : Reads (v (depth - 1)) bytes (i + 1) x (i + 1 + w.length)) :
    Reads (readContainer depth expected (some v) viaMap) bytes i x (i + 1 + w.length + 1) := by
  unfold readContainer
  apply Reads.fixPosition
  rw [Reads.bind_iff (reads_parseWhitespace_at h rfl)]
  have close : restFrom bytes (i + 1 + w.length) = 93 :: t := restFrom_add (restFrom_succ h)
  simp only
  rw [Reads.bind_iff (reads_openContainer deep)]
  exact Reads.closing hv (reads_endSeq close)

theorem readsText_readContainer_obj (deep : 1 < depth) {expected : String}
    {viaSeq : Option (Nat → Reader α)} {v : Nat → Reader α} {fields : List (String × Json)} {x : α}
    (members : ∀ {bytes : ByteArray} {i : Nat} {t : List UInt8},
      restFrom bytes i = textBytes (",".intercalate (compactFields fields)) ++ 125 :: t →
      Reads (v (depth - 1)) bytes i x (i + (textBytes (",".intercalate (compactFields fields))).length)) :
    ReadsText (readContainer depth expected viaSeq (some v)) (.obj fields) x := by
  intro bytes i t h _
  have len : (textBytes (compact (.obj fields))).length =
      (textBytes (",".intercalate (compactFields fields))).length + 1 + 1 := by
    rw [textBytes_obj]
    simp
  rw [textBytes_obj] at h
  have opening : restFrom bytes i =
      123 :: (textBytes (",".intercalate (compactFields fields)) ++ 125 :: t) := by
    rw [h]
    simp
  rw [len, ← Nat.add_assoc, ← Nat.add_assoc, Nat.add_right_comm i]
  exact reads_readContainer_obj deep opening (members (restFrom_succ opening))

theorem elementLoop_seqElements (elem : Reader α) : ElementLoop (seqElements elem) fun _ => elem := by
  intro first f
  rw [seqElements]
  congr 1
  funext r
  cases r <;> rfl

theorem readsText_readSeq {β : Type} {elem : Nat → Reader β} {enc : β → Json} {xs : List β}
    (deep : 1 < depth)
    (each : ∀ x ∈ xs, ValueStart (textBytes (compact (enc x))) ∧ ReadsText (elem (depth - 1)) (enc x) x) :
    ReadsText (readSeq depth elem) (.arr (xs.map enc)) xs := by
  intro bytes i t h _
  have size := length_lt_of_restFrom h
  have len : (textBytes (compact (.arr (xs.map enc)))).length =
      (textBytes (",".intercalate (compactItems (xs.map enc)))).length + 1 + 1 := by
    rw [textBytes_arr]
    simp
  rw [len] at size
  rw [textBytes_arr] at h
  have opening : restFrom bytes i =
      91 :: (textBytes (",".intercalate (compactItems (xs.map enc))) ++ 93 :: t) := by
    rw [h]
    simp
  have elements : ElementsRead (fun _ => elem (depth - 1)) enc xs :=
    fun x hx => ⟨(each x hx).1, fun _ _ => (each x hx).2⟩
  unfold readSeq
  rw [Reads.bind_iff reads_read]
  rw [len, ← Nat.add_assoc, ← Nat.add_assoc, Nat.add_right_comm i]
  exact reads_readContainer_arr deep opening
    (reads_elements (elementLoop_seqElements (elem (depth - 1))) elements (restFrom_succ opening)
      (by omega))

end Containers

section Members

variable {α σ : Type} {bytes : ByteArray} {t : List UInt8} {member : σ → String → Reader σ}

/-- `r` reads `x` from a member's colon and the text of its value `v`. -/
def ReadsMember (r : Reader α) (v : Json) (x : α) : Prop :=
  ∀ {bytes : ByteArray} {i : Nat} {t : List UInt8},
    restFrom bytes i = 58 :: textBytes (compact v) ++ t → ValueEnd t →
    Reads r bytes i x (i + 1 + (textBytes (compact v)).length)

theorem ReadsText.readField {r : Reader α} {v : Json} {x : α} (hr : ReadsText r v x)
    (name : String) : ReadsMember (readField name none r) v (some x) := by
  intro bytes i t h ends
  unfold BrilFlow.readField
  exact (reads_nextValue h (hr (restFrom_succ h) ends)).bind (reads_pure _)

/-- The members of an object, read one after another by `member` from the colon after each key,
take the record from `acc` through each `next` to `out`. -/
inductive MembersRead (member : σ → String → Reader σ) : σ → List (String × Json) → σ → Prop
  | nil (acc : σ) : MembersRead member acc [] acc
  | cons {acc out : σ} {k : String} {v : Json} {ms : List (String × Json)} (next : σ) :
      ReadsMember (member acc k) v next → MembersRead member next ms out →
      MembersRead member acc ((k, v) :: ms) out

theorem MembersRead.append {acc out : σ} {ms ns : List (String × Json)} (mid : σ)
    (first : MembersRead member acc ms mid) (second : MembersRead member mid ns out) :
    MembersRead member acc (ms ++ ns) out := by
  induction first with
  | nil => exact second
  | cons next hm _ ih => exact .cons next hm (ih second)

theorem reads_key_member {k : String} {v : Json} {x : σ} {r : Reader σ} (hr : ReadsMember r v x)
    {i : Nat} (h : restFrom bytes i = memberBytes (k, v) ++ t) (ends : ValueEnd t) :
    Reads parseString bytes (i + 1) k (i + (textBytes (quote k)).length) ∧
      Reads r bytes (i + (textBytes (quote k)).length) x (i + (memberBytes (k, v)).length) := by
  have key : restFrom bytes i = textBytes (quote k) ++ (58 :: textBytes (compact v) ++ t) := by
    rw [h, memberBytes, List.append_assoc]
  refine ⟨reads_parseString_quote k key, ?_⟩
  rw [memberBytes_length, ← Nat.add_assoc, ← Nat.add_assoc]
  exact hr (restFrom_add key) ends

/-- The first member, read by `member`: the walk over the members goes on after it with the
record `member` gave. -/
theorem ReadsMember.go_first {acc next : σ} {k : String} {v : Json}
    (hm : ReadsMember (member acc k) v next) {i fuel : Nat} {rest : List UInt8}
    (h : restFrom bytes i = memberBytes (k, v) ++ rest) (ends : ValueEnd rest) :
    ((readMembers.go member acc true (fuel + 1)).run bytes).run i =
      ((readMembers.go member next false fuel).run bytes).run (i + (memberBytes (k, v)).length) := by
  obtain ⟨name, value⟩ := reads_key_member hm h ends
  obtain ⟨w, quote⟩ := memberBytes_quote (k, v)
  rw [readMembers.go, Reads.run_bind (reads_nextKey_first (by rw [h, quote]; rfl) name)]
  exact Reads.run_bind value

theorem ReadsMember.go_next {acc next : σ} {k : String} {v : Json}
    (hm : ReadsMember (member acc k) v next) {i fuel : Nat} {rest : List UInt8}
    (h : restFrom bytes i = 44 :: (memberBytes (k, v) ++ rest)) (ends : ValueEnd rest) :
    ((readMembers.go member acc false (fuel + 1)).run bytes).run i =
      ((readMembers.go member next false fuel).run bytes).run
        (i + 1 + (memberBytes (k, v)).length) := by
  obtain ⟨name, value⟩ := reads_key_member hm (restFrom_succ h) ends
  obtain ⟨w, quote⟩ := memberBytes_quote (k, v)
  rw [readMembers.go, Reads.run_bind (reads_nextKey_next (by rw [h, quote]; rfl) name)]
  exact Reads.run_bind value

theorem valueEnd_members_append (ms : List (String × Json)) {rest : List UInt8} (ends : ValueEnd rest) :
    ValueEnd ((ms.flatMap fun m => 44 :: memberBytes m) ++ rest) := by
  cases ms with
  | nil => exact ends
  | cons => exact valueEnd_cons (by simp)

theorem length_le_laterMembers (ms : List (String × Json)) :
    ms.length ≤ (ms.flatMap fun m => 44 :: memberBytes m).length := by
  induction ms with
  | nil => exact Nat.le_refl 0
  | cons m ms ih =>
    simp only [List.flatMap_cons, List.length_append, List.length_cons]
    omega

/-- Members after the first, read one after another: the walk goes on after their text with the
record they built, one step of fuel spent on each. -/
theorem MembersRead.go_later {acc mid : σ} {ms : List (String × Json)}
    (run : MembersRead member acc ms mid) {rest : List UInt8} (ends : ValueEnd rest) :
    ∀ {i fuel : Nat}, restFrom bytes i = (ms.flatMap fun m => 44 :: memberBytes m) ++ rest →
      ((readMembers.go member acc false (fuel + ms.length)).run bytes).run i =
        ((readMembers.go member mid false fuel).run bytes).run
          (i + (ms.flatMap fun m => 44 :: memberBytes m).length) := by
  induction run with
  | nil acc =>
    intro i fuel _
    rfl
  | @cons acc out k v ms next hm _ ih =>
    intro i fuel h
    have whole : restFrom bytes i =
        44 :: (memberBytes (k, v) ++ ((ms.flatMap fun m => 44 :: memberBytes m) ++ rest)) := by
      rw [h]
      simp
    rw [List.length_cons, ← Nat.add_assoc, hm.go_next whole (valueEnd_members_append ms ends),
      ih (restFrom_add (restFrom_succ whole))]
    simp only [List.flatMap_cons, List.length_append, List.length_cons]
    congr 1
    omega

theorem MembersRead.reads_later {acc out : σ} {ms : List (String × Json)}
    (run : MembersRead member acc ms out) {i fuel : Nat}
    (h : restFrom bytes i = (ms.flatMap fun m => 44 :: memberBytes m) ++ 125 :: t)
    (enough : (ms.flatMap fun m => 44 :: memberBytes m).length < fuel) :
    Reads (readMembers.go member acc false fuel) bytes i out
      (i + (ms.flatMap fun m => 44 :: memberBytes m).length) := by
  obtain ⟨f, rfl⟩ : ∃ f, fuel = f + 1 + ms.length :=
    ⟨fuel - 1 - ms.length, by have := length_le_laterMembers ms; omega⟩
  unfold Reads
  rw [run.go_later (valueEnd_cons (by simp)) h, readMembers.go,
    Reads.run_bind (reads_nextKey_close false (restFrom_add h))]
  rfl

theorem MembersRead.reads {acc out : σ} {fields : List (String × Json)}
    (run : MembersRead member acc fields out) {i : Nat}
    (h : restFrom bytes i = textBytes (",".intercalate (compactFields fields)) ++ 125 :: t) :
    Reads (readMembers member acc) bytes i out
      (i + (textBytes (",".intercalate (compactFields fields))).length) := by
  have size := length_lt_of_restFrom h
  unfold readMembers
  rw [Reads.bind_iff reads_read]
  cases run with
  | nil acc =>
    have empty : textBytes (",".intercalate (compactFields [])) = [] := by
      rw [compactFields, String.intercalate_nil]
      rfl
    rw [empty] at h ⊢
    rw [readMembers.go, Reads.bind_iff (reads_nextKey_close true h)]
    exact reads_pure _
  | cons next hm rest =>
    rename_i k v ms
    rw [textBytes_fields] at h size ⊢
    have whole : restFrom bytes i =
        memberBytes (k, v) ++ ((ms.flatMap fun m => 44 :: memberBytes m) ++ 125 :: t) := by
      rw [h, List.append_assoc]
    unfold Reads
    rw [hm.go_first whole (valueEnd_members ms), List.length_append, ← Nat.add_assoc]
    have key := textBytes_quote_length k
    rw [List.length_append, memberBytes_length] at size
    exact rest.reads_later (restFrom_add whole) (by omega)

theorem ReadsMember.bind_pure {β : Type} {r : Reader α} {v : Json} {x : α} (hr : ReadsMember r v x)
    (f : α → β) : ReadsMember (r >>= fun y => pure (f y)) v (f x) :=
  fun h ends => (hr h ends).bind (reads_pure _)

end Members

section Records

variable {depth : Nat}

theorem Argument.readsText {a : Argument} (h : a.ty.JsonReadable) (deep : 123 < depth) :
    ReadsText (readArgument depth) a.toJson a := by
  unfold readArgument
  rw [Argument.toJson]
  apply readsText_readContainer_obj (by omega)
  intro bytes i t hb
  refine (MembersRead.reads (.cons (some a.name, none) ?_ (.cons (some a.name, some a.ty) ?_
    (.nil _))) hb).bind ?_
  · simp only
    exact ReadsMember.bind_pure (ReadsText.readField (readsText_readString _ _) "name") _
  · simp only
    exact ReadsMember.bind_pure (ReadsText.readField (Ty.JsonReadable.readsText h (by omega)) "type") _
  · simp only [requireField, pure_bind]
    exact reads_pure _

theorem valueStart_obj (fields : List (String × Json)) :
    ValueStart (textBytes (compact (.obj fields))) :=
  ⟨_, _, textBytes_obj _, by decide⟩

theorem Instr.valueStart (ins : Instr) : ValueStart (textBytes (compact ins.toJson)) := by
  cases ins <;> exact valueStart_obj _

/-- A function is read back within more open containers than its types need: its return type
is read within two fewer than its record. -/
theorem Function.readsText {f : Function} (h : f.JsonReadable) (deep : 125 < depth) :
    ReadsText (readFunction depth) f.toJson f := by
  unfold readFunction
  rw [Function.toJson]
  apply readsText_readContainer_obj (by omega)
  intro bytes i t hb
  -- the members in order: the name, the arguments unless there are none, the return type if
  -- any, the instructions
  refine (MembersRead.reads (MembersRead.append
    { name := some f.name, args := if f.args.isEmpty then none else some f.args,
      ret := f.ret.map some }
    (MembersRead.append { name := some f.name, args := if f.args.isEmpty then none else some f.args }
      (MembersRead.append { name := some f.name } (.cons { name := some f.name } ?name (.nil _)) ?args)
      ?ret)
    (.cons
      { name := some f.name, args := if f.args.isEmpty then none else some f.args,
        ret := f.ret.map some, instrs := some f.instrs }
      ?instrs (.nil _))) hb).bind ?finish
  case name =>
    simp only
    exact ReadsMember.bind_pure (ReadsText.readField (readsText_readString _ _) "name") _
  case args =>
    cases empty : f.args.isEmpty
    · simp only [Bool.false_eq_true, if_false]
      refine .cons _ ?_ (.nil _)
      simp only
      exact ReadsMember.bind_pure (ReadsText.readField (readsText_readSeq (by omega)
        fun a ha => ⟨valueStart_obj _, Argument.readsText (h.args a ha) (by omega)⟩) "args") _
    · simp only [if_true]
      exact .nil _
  case ret =>
    cases ret : f.ret with
    | none => exact .nil _
    | some ty =>
      refine .cons _ ?_ (.nil _)
      simp only
      exact ReadsMember.bind_pure (ReadsText.readField (ReadsText.readOption
        (Ty.Sorted.readsText (h.ret ty ret).1 (by have := (h.ret ty ret).2; omega))
        (Ty.textBytes_start ty)) "type") _
  case instrs =>
    simp only
    exact ReadsMember.bind_pure (ReadsText.readField (readsText_readSeq (by omega)
      fun ins hi => ⟨Instr.valueStart ins, Instr.JsonReadable.readsText (h.instrs ins hi) (by omega)⟩)
      "instrs") _
  case finish =>
    simp only [requireField, pure_bind, getD_ifEmpty, getD_map_some, Option.getD_some]
    exact reads_pure _

theorem Program.readsText {p : Program} (h : p.JsonReadable) (deep : 127 < depth) :
    ReadsText (readProgram depth) p.toJson p := by
  unfold readProgram
  rw [Program.toJson]
  apply readsText_readContainer_obj (by omega)
  intro bytes i t hb
  refine (MembersRead.reads (.cons _ ?_ (.nil (some p.functions))) hb).bind ?_
  · simp only
    exact ReadsText.readField (readsText_readSeq (by omega)
      fun f hf => ⟨valueStart_obj _, Function.readsText (h f hf) (by omega)⟩) "functions"
  · simp only [Option.getD_some]
    exact reads_pure _

end Records

section Whole

variable {α : Type}

theorem readAll_eq_ok {r : Reader α} {text : String} {x : α} {k : Nat}
    (hr : Reads r text.toUTF8 0 x k) (rest : restFrom text.toUTF8 k = []) :
    readAll r text = .ok x := by
  unfold readAll
  dsimp only
  split
  · next y j ran =>
    rw [(Reads.unique ran (hr.bind ((reads_parseWhitespace_end rest).bind (reads_pure x)))).1]
  · next e j ran =>
    exact absurd (⟨e, j, ran⟩ : Fails _ text.toUTF8 0)
      (Reads.not_fails (hr.bind ((reads_parseWhitespace_end rest).bind (reads_pure x))))

theorem ReadsText.readAll {r : Reader α} {j : Json} {x : α} (hr : ReadsText r j x) :
    readAll r (compact j) = .ok x := by
  apply readAll_eq_ok (hr (by rw [restFrom_toUTF8, List.append_nil]) valueEnd_nil)
  rw [restFrom, List.drop_eq_nil_iff]
  simp [textBytes]

/-- A program whose types are sorted and nest no deeper than the reader's bound on open containers
allows where they stand, whose integers fit in 64 bits and whose floats read back, is read back
from its compact JSON text. -/
theorem Program.ofJsonText_compact_toJson {p : Program} (h : p.JsonReadable) :
    Program.ofJsonText (compact p.toJson) = .ok p :=
  ReadsText.readAll (Program.readsText h (show 127 < depthLimit by decide))

/-- A program with a label, constants of every kind (among them a float of integral value and a
character that is a digit), an operation with arguments, labels and functions, and map types of
no key and of two keys. -/
def sampleProgram : Program where
  functions := [
    { name := "main"
      args := [{ name := "n", ty := .primitive "int" }]
      ret := some (.parameterized [("key", .primitive "int"), ("value", .primitive "float")])
      instrs := [
        .label "start",
        .op { op := "const", dest := some "x", ty := some (.primitive "float"),
              value := some (.float 0x4008000000000000) },
        .op { op := "const", dest := some "c", ty := some (.primitive "char"), value := some (.char '1') },
        .op { op := "const", dest := some "k", ty := some (.primitive "int"), value := some (.int 3) },
        .op { op := "call", dest := some "y", ty := some (.primitive "int"), args := ["n"],
              funcs := ["helper"] },
        .op { op := "br", args := ["b"], labels := ["start", "start"] },
        .op { op := "ret" }] },
    { name := "helper", ret := some (.parameterized []) }]

theorem sampleProgram_jsonReadable : sampleProgram.JsonReadable := by
  have primitive (name : String) : (Ty.primitive name).JsonReadable := ⟨.primitive name, Nat.zero_le _⟩
  intro f member
  simp only [sampleProgram, List.mem_cons, List.not_mem_nil, or_false] at member
  rcases member with rfl | rfl
  · refine ⟨?args, ?ret, ?instrs⟩
    case args =>
      intro a member
      simp only [List.mem_cons, List.not_mem_nil, or_false] at member
      subst member
      exact primitive _
    case ret =>
      intro t member
      simp only [Option.mem_def, Option.some.injEq] at member
      subst member
      refine ⟨.parameterized (by decide) ?_, by decide⟩
      intro e member
      simp only [List.mem_cons, List.not_mem_nil, or_false] at member
      rcases member with rfl | rfl <;> exact .primitive _
    case instrs =>
      intro i member
      simp only [List.mem_cons, List.not_mem_nil, or_false] at member
      rcases member with rfl | rfl | rfl | rfl | rfl | rfl | rfl
      case inl => trivial
      all_goals constructor <;> rintro _ ⟨⟩
      -- what is left: the primitive types of four operations and the three constants
      all_goals first | exact primitive _ | (unfold Literal.JsonReadable; decide +kernel)
  · refine ⟨?args, ?ret, ?instrs⟩
    case args => rintro _ ⟨⟩
    case instrs => rintro _ ⟨⟩
    case ret =>
      rintro _ ⟨⟩
      exact ⟨.parameterized List.Pairwise.nil (by rintro _ ⟨⟩), Nat.le_add_left _ _⟩

theorem sampleProgram_read_back :
    sampleProgram.JsonReadable ∧ Program.ofJsonText (compact sampleProgram.toJson) = .ok sampleProgram :=
  ⟨sampleProgram_jsonReadable, Program.ofJsonText_compact_toJson sampleProgram_jsonReadable⟩

end Whole

end BrilFlow
