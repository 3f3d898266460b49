import BrilFlow.Proofs.Edges
import BrilFlow.Parse.Basic

/-! How reading Bril text fails: with the grammar's report, or at the first refused instruction in
the order written, on the line where it starts. -/
namespace BrilFlow.Text

def Operand.literal? : Operand → Option LiteralToken
  | .literal t => some t
  | _ => none

def InstrSyntax.literals (i : InstrSyntax) : List LiteralToken := i.operands.filterMap Operand.literal?

def ItemSyntax.instr? : ItemSyntax → Option InstrSyntax
  | .instr i => some i
  | .label _ => none

def instructionsOf (fs : List FunctionSyntax) : List InstrSyntax :=
  fs.flatMap fun f => f.items.filterMap ItemSyntax.instr?

/-- An integer literal whose text is no integer from `-2^63` to `2^63 - 1`. -/
def LiteralToken.OutOfRange : LiteralToken → Prop
  | .int t => ¬∃ n, t.toInt? = some n ∧ Literal.intMin ≤ n ∧ n ≤ Literal.intMax
  | _ => False

/-- An instruction the reader refuses, with the error that says so, on the line where the
instruction starts: a literal off `const` (the first is named), a `const` whose first literal is
out of range (it is named) or that has a second literal (the second is named), and a `const`
without a literal. -/
@[mk_iff]
inductive InstrSyntax.Refused (s : Array Char) (i : InstrSyntax) : ParseError → Prop
  | offConst {t : LiteralToken} {rest : List LiteralToken} : i.opcode ≠ "const" →
      i.literals = t :: rest → i.Refused s (.unexpectedLiteral (lineOf s i.start) i.opcode t.text)
  | outOfRange {t : LiteralToken} {rest : List LiteralToken} : i.opcode = "const" →
      i.literals = t :: rest → t.OutOfRange →
      i.Refused s (.unexpectedLiteral (lineOf s i.start) i.opcode t.text)
  | second {t t' : LiteralToken} {rest : List LiteralToken} : i.opcode = "const" →
      i.literals = t :: t' :: rest → ¬t.OutOfRange →
      i.Refused s (.unexpectedLiteral (lineOf s i.start) i.opcode t'.text)
  | missing : i.opcode = "const" → i.literals = [] → i.Refused s (.missingValue (lineOf s i.start))

/-- A text is in the language of the grammar when the program rule reads all of it. -/
def InLanguage (s : Array Char) : Prop := ∃ fs, Peg.run (program s.size) s = .ok fs

/-- What the reader does after the operands: a `const` needs a value, and an integer on a
`float` constant becomes a float. -/
def finishConst (line : Nat) (o : Operation) : Except ParseError Operation :=
  if o.isConst then
    match o.value, o.ty with
    | none, _ => throw (.missingValue line)
    | some (.int n), some (.primitive "float") =>
      return { o with value := some (.float (Literal.floatOfInt n)) }
    | _, _ => return o
  else return o

def startOf (i : InstrSyntax) : Operation :=
  { op := i.opcode, dest := i.dest.map (·.1), ty := i.dest.bind (·.2) }

theorem lowerInstr_eq (s : Array Char) (i : InstrSyntax) :
    lowerInstr s i =
      i.operands.foldlM (takeOperand (lineOf s i.start)) (startOf i) >>=
        finishConst (lineOf s i.start) := rfl

variable {line : Nat} {o : Operation} {e : ParseError}

theorem LiteralToken.value?_eq_none_iff {t : LiteralToken} : t.value? = none ↔ t.OutOfRange := by
  cases t with
  | int txt =>
    simp only [LiteralToken.value?, Option.map_eq_none_iff, OutOfRange, intValue]
    cases h : txt.toInt? <;> simp
  | float _ => simp [LiteralToken.value?, OutOfRange]
  | boolean _ => simp [LiteralToken.value?, OutOfRange]
  | char _ _ => simp [LiteralToken.value?, OutOfRange]

theorem LiteralToken.not_outOfRange {t : LiteralToken} {v : Literal} (valid : t.value? = some v) :
    ¬t.OutOfRange := by
  rw [← LiteralToken.value?_eq_none_iff, valid]
  simp

theorem Operation.isConst_congr {o' : Operation} (same : o'.op = o.op) :
    o'.isConst = o.isConst := by
  simp only [Operation.isConst, same]

theorem exists_ok_iff {ε β : Type} (x : Except ε β) : (∃ b, x = .ok b) ↔ ∀ e, x ≠ .error e := by
  cases x <;> simp

theorem takeOperand_of_literal?_eq_none (line : Nat) {x : Operand} (h : x.literal? = none) :
    ∃ o', takeOperand line o x = .ok o' ∧ o'.op = o.op ∧ o'.value = o.value := by
  cases x with
  | literal t => simp [Operand.literal?] at h
  | ident _ => exact ⟨_, rfl, rfl, rfl⟩
  | label _ => exact ⟨_, rfl, rfl, rfl⟩
  | func _ => exact ⟨_, rfl, rfl, rfl⟩

/-- An operation that is no `const` or has its value refuses the first literal among the
operands, and takes the operands when there is none. -/
theorem foldlM_takeOperand_closed (line : Nat) (closed : o.isConst = false ∨ o.value.isSome = true) :
    ∀ xs : List Operand,
      (xs.filterMap Operand.literal? = [] ∧
        ∃ o', xs.foldlM (takeOperand line) o = .ok o' ∧ o'.op = o.op ∧ o'.value = o.value) ∨
      ∃ t rest, xs.filterMap Operand.literal? = t :: rest ∧
        xs.foldlM (takeOperand line) o = .error (.unexpectedLiteral line o.op t.text) := by
  intro xs
  induction xs generalizing o with
  | nil => exact .inl ⟨rfl, o, rfl, rfl, rfl⟩
  | cons x xs ih =>
    rw [List.foldlM_cons]
    cases hx : x.literal? with
    | none =>
      obtain ⟨o₁, taken, op, value⟩ := takeOperand_of_literal?_eq_none line (o := o) hx
      have closed₁ : o₁.isConst = false ∨ o₁.value.isSome = true := by
        rwa [Operation.isConst_congr op, value]
      rw [List.filterMap_cons_none hx, taken]
      simpa only [op, value, bind, Except.bind] using ih closed₁
    | some t =>
      obtain rfl : x = .literal t := by cases x <;> simp_all [Operand.literal?]
      refine .inr ⟨t, xs.filterMap Operand.literal?, List.filterMap_cons_some hx, ?_⟩
      have refused : (!o.isConst || o.value.isSome) = true := by
        rcases closed with h | h <;> simp [h]
      simp [takeOperand, refused, bind, Except.bind]

theorem foldlM_takeOperand_open (line : Nat) (const : o.isConst = true) (unvalued : o.value = none) :
    ∀ xs : List Operand,
      (xs.filterMap Operand.literal? = [] ∧
        ∃ o', xs.foldlM (takeOperand line) o = .ok o' ∧ o'.op = o.op ∧ o'.value = none) ∨
      (∃ t rest, xs.filterMap Operand.literal? = t :: rest ∧ t.value? = none ∧
        xs.foldlM (takeOperand line) o = .error (.unexpectedLiteral line o.op t.text)) ∨
      (∃ t v, xs.filterMap Operand.literal? = [t] ∧ t.value? = some v ∧
        ∃ o', xs.foldlM (takeOperand line) o = .ok o' ∧ o'.op = o.op ∧ o'.value = some v) ∨
      ∃ t v t' rest, xs.filterMap Operand.literal? = t :: t' :: rest ∧ t.value? = some v ∧
        xs.foldlM (takeOperand line) o = .error (.unexpectedLiteral line o.op t'.text) := by
  intro xs
  induction xs generalizing o with
  | nil => exact .inl ⟨rfl, o, rfl, rfl, unvalued⟩
  | cons x xs ih =>
    rw [List.foldlM_cons]
    cases hx : x.literal? with
    | none =>
      obtain ⟨o₁, taken, op, value⟩ := takeOperand_of_literal?_eq_none line (o := o) hx
      have const₁ : o₁.isConst = true := (Operation.isConst_congr op).trans const
      rw [List.filterMap_cons_none hx, taken]
      simpa only [op, bind, Except.bind] using ih const₁ (value.trans unvalued)
    | some t =>
      obtain rfl : x = .literal t := by cases x <;> simp_all [Operand.literal?]
      rw [List.filterMap_cons_some hx]
      have free : (!o.isConst || o.value.isSome) = false := by simp [const, unvalued]
      cases hv : t.value? with
      | none =>
        refine .inr (.inl ⟨t, _, rfl, hv, ?_⟩)
        simp [takeOperand, free, hv, bind, Except.bind]
      | some v =>
        -- the literal is taken, and from then on the operation has its value
        have taken : takeOperand line o (.literal t) = .ok { o with value := some v } := by
          simp [takeOperand, free, hv]
        rw [taken]
        rcases foldlM_takeOperand_closed line (o := { o with value := some v })
            (.inr rfl) xs with ⟨none, o', fold, op, value⟩ | ⟨t', rest, lits, fold⟩
        · exact .inr (.inr (.inl ⟨t, v, by rw [none], hv, o', fold, op, value⟩))
        · exact .inr (.inr (.inr ⟨t, v, t', rest, by rw [lits], hv, fold⟩))

theorem finishConst_of_isConst_false (h : o.isConst = false) : finishConst line o = .ok o := by
  simp [finishConst, h, pure, Except.pure]

theorem finishConst_of_value_none (const : o.isConst = true) (h : o.value = none) :
    finishConst line o = .error (.missingValue line) := by
  simp [finishConst, const, h, throw, throwThe, MonadExceptOf.throw]

theorem finishConst_of_value_some (line : Nat) {v : Literal} (h : o.value = some v) :
    ∃ o', finishConst line o = .ok o' := by
  unfold finishConst
  split
  · split
    · simp_all
    · exact ⟨_, rfl⟩
    · exact ⟨_, rfl⟩
  · exact ⟨_, rfl⟩

theorem lowerInstr_eq_error_iff {s : Array Char} {i : InstrSyntax} :
    lowerInstr s i = .error e ↔ i.Refused s e := by
  rw [lowerInstr_eq, InstrSyntax.refused_iff, InstrSyntax.literals]
  by_cases const : i.opcode = "const"
  · have isConst : (startOf i).isConst = true := by simp [startOf, Operation.isConst, const]
    simp only [const, ne_eq, not_true_eq_false, false_and, exists_false, true_and, false_or]
    rcases foldlM_takeOperand_open (lineOf s i.start) isConst rfl i.operands with
      ⟨none, o', fold, op, value⟩ | ⟨t, rest, lits, invalid, fold⟩ |
        ⟨t, v, lits, valid, o', fold, op, value⟩ | ⟨t, v, t', rest, lits, valid, fold⟩
    · have const' : o'.isConst = true := (Operation.isConst_congr op).trans isConst
      rw [fold]
      simp [bind, Except.bind, finishConst_of_value_none const' value, none, eq_comm]
    · rw [fold]
      simp [bind, Except.bind, lits, LiteralToken.value?_eq_none_iff.mp invalid, eq_comm, startOf,
        const]
    · obtain ⟨o'', finished⟩ := finishConst_of_value_some (lineOf s i.start) value
      rw [fold]
      simp [bind, Except.bind, finished, lits, LiteralToken.not_outOfRange valid]
    · rw [fold]
      simp [bind, Except.bind, lits, LiteralToken.not_outOfRange valid, eq_comm, startOf, const]
  · have notConst : (startOf i).isConst = false := by simp [startOf, Operation.isConst, const]
    simp only [const, ne_eq, not_false_eq_true, true_and, false_and, exists_false, or_false]
    rcases foldlM_takeOperand_closed (lineOf s i.start) (.inl notConst) i.operands with
      ⟨none, o', fold, op, value⟩ | ⟨t, rest, lits, fold⟩
    · have notConst' : o'.isConst = false := (Operation.isConst_congr op).trans notConst
      rw [fold]
      simp [bind, Except.bind, finishConst_of_isConst_false notConst', none]
    · rw [fold]
      simp [bind, Except.bind, lits, eq_comm, startOf]

section Lists

variable {ε α β γ δ : Type} {f : α → Except ε β} {g : γ → Except ε δ}

theorem exists_mapM_eq_ok_iff {l : List α} :
    (∃ r, l.mapM f = .ok r) ↔ ∀ a ∈ l, ∃ b, f a = .ok b := by
  induction l with
  | nil => exact iff_of_true ⟨[], rfl⟩ (by simp)
  | cons a l ih =>
    rw [List.mapM_cons, List.forall_mem_cons, ← ih]
    cases f a <;> cases l.mapM f <;> simp [bind, Except.bind, pure, Except.pure]

theorem mapM_eq_error_iff_flatMap {h : α → List γ}
    (parts : ∀ a e, f a = .error e ↔ (h a).mapM g = .error e) {l : List α} {e : ε} :
    l.mapM f = .error e ↔ (l.flatMap h).mapM g = .error e := by
  induction l with
  | nil => simp [pure, Except.pure]
  | cons a l ih =>
    rw [List.mapM_cons, List.flatMap_cons, List.mapM_append]
    cases hfa : f a with
    | error e' =>
      simp [(parts a e').mp hfa, bind, Except.bind]
    | ok b =>
      -- the part of an element that succeeds succeeds as well
      obtain ⟨bs, hbs⟩ := (exists_ok_iff ((h a).mapM g)).mpr fun e' failed => by
        rw [← parts, hfa] at failed
        cases failed
      rw [hbs]
      cases hl : l.mapM f <;> cases hr : (l.flatMap h).mapM g <;>
        simp_all [bind, Except.bind, pure, Except.pure]

end Lists

variable {s : Array Char}

theorem lowerItem_eq_error_iff {it : ItemSyntax} :
    lowerItem s it = .error e ↔ it.instr?.toList.mapM (lowerInstr s) = .error e := by
  cases it with
  | label _ => simp [lowerItem, ItemSyntax.instr?, pure, Except.pure]
  | instr i =>
    cases h : lowerInstr s i <;>
      simp [lowerItem, ItemSyntax.instr?, h, Functor.map, Except.map, bind, Except.bind, pure,
        Except.pure]

theorem lowerFunction_eq_error_iff {f : FunctionSyntax} :
    lowerFunction s f = .error e ↔ (f.items.filterMap ItemSyntax.instr?).mapM (lowerInstr s) = .error e := by
  rw [List.filterMap_eq_flatMap_toList,
    ← mapM_eq_error_iff_flatMap fun _ _ => lowerItem_eq_error_iff]
  unfold lowerFunction
  cases f.items.mapM (lowerItem s) <;> simp [bind, Except.bind, pure, Except.pure]

theorem mapM_lowerFunction_eq_error_iff {fs : List FunctionSyntax} :
    fs.mapM (lowerFunction s) = .error e ↔ (instructionsOf fs).mapM (lowerInstr s) = .error e :=
  mapM_eq_error_iff_flatMap fun _ _ => lowerFunction_eq_error_iff

theorem ofText_eq_error_iff {text : String} {fs : List FunctionSyntax}
    (run : Peg.run (program text.toList.toArray.size) text.toList.toArray = .ok fs) :
    Program.ofText text = .error e ↔ fs.mapM (lowerFunction text.toList.toArray) = .error e := by
  have parsed : parseFunctions text.toList.toArray = .ok fs := by
    unfold parseFunctions
    rw [run]
  unfold Program.ofText
  simp only [parsed]
  cases fs.mapM (lowerFunction text.toList.toArray) <;>
    simp [bind, Except.bind, pure, Except.pure]

theorem ofText_of_not_inLanguage {text : String} (outside : ¬InLanguage text.toList.toArray) :
    ∃ r, Program.ofText text = .error (.grammar r) := by
  cases run : Peg.run (program text.toList.toArray.size) text.toList.toArray with
  | ok fs => exact absurd ⟨fs, run⟩ outside
  | error failure =>
    have parsed : ∃ x, parseFunctions text.toList.toArray = .error x := by
      unfold parseFunctions
      rw [run]
      exact ⟨_, rfl⟩
    obtain ⟨⟨pos, rules⟩, parsed⟩ := parsed
    unfold Program.ofText
    simp only [parsed]
    exact ⟨_, rfl⟩

theorem InstrSyntax.Refused.not_grammar {i : InstrSyntax} {r : String} :
    ¬i.Refused s (.grammar r) := by
  intro refused
  cases refused

end BrilFlow.Text

namespace BrilFlow

open Text

/-- How reading text fails: with the grammar's report exactly when the program rule does not
read all of the text. When it does, reading fails exactly with the error of the first refused
instruction in the order written, which names the line where that instruction starts, and gives a
program exactly when no instruction is refused. -/
theorem parseText_failures (text : String) :
    ((∃ r, Program.parseText text = .error (.grammar r)) ↔ ¬InLanguage text.toList.toArray) ∧
      ∀ fs, Peg.run (program text.toList.toArray.size) text.toList.toArray = .ok fs →
        (∀ e, Program.parseText text = .error e ↔
          ∃ pre i post, instructionsOf fs = pre ++ i :: post ∧
            (∀ j ∈ pre, ∀ e', ¬j.Refused text.toList.toArray e') ∧ i.Refused text.toList.toArray e) ∧
        ((∃ p, Program.parseText text = .ok p) ↔
          ∀ i ∈ instructionsOf fs, ∀ e, ¬i.Refused text.toList.toArray e) := by
  have notRefused : ∀ i : InstrSyntax, (∃ o, lowerInstr text.toList.toArray i = .ok o) ↔
      ∀ e, ¬i.Refused text.toList.toArray e := fun i => by
    simp only [exists_ok_iff, ne_eq, lowerInstr_eq_error_iff]
  have errors : ∀ fs, Peg.run (program text.toList.toArray.size) text.toList.toArray = .ok fs →
      ∀ e, Program.parseText text = .error e ↔
        ∃ pre i post, instructionsOf fs = pre ++ i :: post ∧
          (∀ j ∈ pre, ∀ e', ¬j.Refused text.toList.toArray e') ∧ i.Refused text.toList.toArray e :=
    fun fs run e => by
      rw [Program.parseText, ofText_eq_error_iff run, mapM_lowerFunction_eq_error_iff,
        mapM_eq_error_iff_of notRefused fun _ => lowerInstr_eq_error_iff]
  refine ⟨⟨fun ⟨r, failed⟩ ⟨fs, run⟩ => ?_, ofText_of_not_inLanguage⟩,
    fun fs run => ⟨errors fs run, ?_⟩⟩
  · obtain ⟨-, i, -, -, -, refused⟩ := (errors fs run _).mp failed
    exact refused.not_grammar
  · -- the text gives a program exactly when its instructions all give operations
    rw [exists_ok_iff]
    simp only [ne_eq, Program.parseText, ofText_eq_error_iff run, mapM_lowerFunction_eq_error_iff]
    rw [← exists_ok_iff, exists_mapM_eq_ok_iff]
    exact forall₂_congr fun i _ => notRefused i

end BrilFlow
