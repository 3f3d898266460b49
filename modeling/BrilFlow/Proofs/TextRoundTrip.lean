import BrilFlow.Proofs.TextGrammar
import BrilFlow.Proofs.Edges
import BrilFlow.Parse.Basic

/-! Reading Bril text back into programs: the reader accepts exactly the programs with a text, and
on them it inverts `Program.text`. -/
namespace BrilFlow

open Text Text.Peg Decimal

section Literals

theorem intValue_toString {n : Int} (h : Literal.intMin ≤ n ∧ n ≤ Literal.intMax) :
    intValue (toString n) = some n := by
  simp [intValue, h]

theorem Literal.Textual.value?_token {v : Literal} (hv : v.Textual) : v.token.value? = some v := by
  cases v with
  | bool b => cases b <;> simp [Literal.token, LiteralToken.value?]
  | int n => simp only [Literal.token, LiteralToken.value?, intValue_toString hv, Option.map_some]
  | float bits => simp [Literal.token, LiteralToken.value?, floatValue_floatText hv]
  | char c => rfl

theorem LiteralToken.Wellformed.textual {tok : LiteralToken} {v : Literal} (ht : tok.Wellformed)
    (e : tok.value? = some v) : v.Textual := by
  cases tok with
  | int t =>
    simp only [LiteralToken.value?, Option.map_eq_some_iff] at e
    obtain ⟨n, hn, rfl⟩ := e
    unfold intValue at hn
    split at hn
    · split at hn
      · cases hn
        assumption
      · cases hn
    · cases hn
  | float t =>
    cases e
    exact isNaN_floatValue t
  | boolean t =>
    cases e
    trivial
  | char t c =>
    cases e
    exact ht

end Literals

section Gathering

variable {line : Nat} {o o' : Operation}

/-- An operation whose operands are being gathered: its parts have a text and a value stands
only on a `const`. -/
structure Operation.Gathering (o : Operation) : Prop extends o.PartsTextual where
  const : o.value.isSome → o.isConst

theorem Operation.Gathering.takeOperand (ho : o.Gathering) {x : Operand} (hx : x.Wellformed)
    (e : takeOperand line o x = .ok o') : o'.Gathering := by
  cases x with
  | ident a =>
    cases e
    exact { ho with args := fun b hb => ((List.mem_append.mp hb).elim (ho.args b)
      fun hb => by rw [List.mem_singleton.mp hb]; exact hx) }
  | label l =>
    cases e
    exact { ho with labels := fun b hb => ((List.mem_append.mp hb).elim (ho.labels b)
      fun hb => by rw [List.mem_singleton.mp hb]; exact hx) }
  | func f =>
    cases e
    exact { ho with funcs := fun b hb => ((List.mem_append.mp hb).elim (ho.funcs b)
      fun hb => by rw [List.mem_singleton.mp hb]; exact hx) }
  | literal tok =>
    simp only [Text.takeOperand] at e
    split at e
    · cases e
    · rename_i free
      simp only [Bool.or_eq_true, Bool.not_eq_eq_eq_not, Bool.not_true, not_or, Bool.not_eq_false] at free
      split at e
      · rename_i v hv
        cases e
        have hv' : v.Textual := LiteralToken.Wellformed.textual (show tok.Wellformed from hx) hv
        exact { ho with literal := fun w hw => by cases hw; exact hv', const := fun _ => free.1 }
      · cases e

theorem Operation.Gathering.foldlM (ho : o.Gathering) {xs : List Operand} (hxs : ∀ x ∈ xs, x.Wellformed)
    (e : xs.foldlM (Text.takeOperand line) o = .ok o') : o'.Gathering := by
  induction xs generalizing o with
  | nil =>
    cases e
    exact ho
  | cons x xs ih =>
    rw [List.foldlM_cons] at e
    cases h : Text.takeOperand line o x with
    | error err =>
      rw [h] at e
      cases e
    | ok o₁ =>
      rw [h] at e
      exact ih (ho.takeOperand (hxs x List.mem_cons_self) h) (fun y hy => hxs y (List.mem_cons_of_mem x hy)) e

theorem Text.InstrSyntax.Wellformed.gathering {ins : InstrSyntax} (hi : ins.Wellformed) :
    Operation.Gathering { op := ins.opcode, dest := ins.dest.map (·.1), ty := ins.dest.bind (·.2) } where
  op := hi.opcode
  dest d hd := by
    obtain ⟨dt, hdt, rfl⟩ := Option.mem_map.mp hd
    exact (hi.dest dt hdt).1
  ty t ht := by
    obtain ⟨dt, hdt, ht⟩ := Option.mem_bind_iff.mp ht
    exact ⟨(hi.dest dt hdt).2 t ht, by simp [Option.mem_def.mp hdt]⟩
  args := by simp
  labels := by simp
  funcs := by simp
  literal := by simp
  const := by simp

theorem lowerInstr_textual {s : Array Char} {ins : InstrSyntax} (hi : ins.Wellformed)
    (e : lowerInstr s ins = .ok o) : o.Textual := by
  unfold lowerInstr at e
  dsimp only at e
  cases h : ins.operands.foldlM (takeOperand (lineOf s ins.start))
      { op := ins.opcode, dest := ins.dest.map (·.1), ty := ins.dest.bind (·.2) } with
  | error err =>
    rw [h] at e
    cases e
  | ok o₁ =>
    rw [h] at e
    have g := hi.gathering.foldlM hi.operands h
    simp only [bind, Except.bind] at e
    -- the fix-up after the operands: a `const` needs a value, and an integer on a `float`
    -- constant becomes the float nearest to it
    split at e
    · rename_i const
      split at e
      · cases e
      · rename_i n _ _
        cases e
        exact { g.toPartsTextual with
          literal := fun w hw => by cases hw; exact isNaN_floatOfInt n
          value := const.symm
          floatConst := fun _ m hm => by cases hm }
      · rename_i valued notFloatInt
        cases e
        refine { g.toPartsTextual with value := ?_, floatConst := fun hty n hn => notFloatInt n hn hty }
        rw [const, Option.isSome_iff_ne_none]
        exact valued
    · rename_i notConst
      cases e
      have unvalued : o.value.isSome = false := by
        cases hv : o.value.isSome
        · rfl
        · exact absurd (g.const hv) notConst
      refine { g.toPartsTextual with value := by rw [unvalued, Bool.eq_false_iff.mpr notConst], floatConst := ?_ }
      intro _ n hn
      rw [hn] at unvalued
      cases unvalued

end Gathering

section Sorting

variable {line : Nat} {o : Operation}

theorem foldlM_funcs (fs : List String) (acc : Operation) :
    (fs.map Operand.func).foldlM (takeOperand line) acc = .ok { acc with funcs := acc.funcs ++ fs } := by
  induction fs generalizing acc with
  | nil => simp [pure, Except.pure]
  | cons f fs ih => simp [List.foldlM_cons, Text.takeOperand, bind, Except.bind, ih]

theorem foldlM_args (as : List String) (acc : Operation) :
    (as.map Operand.ident).foldlM (takeOperand line) acc = .ok { acc with args := acc.args ++ as } := by
  induction as generalizing acc with
  | nil => simp [pure, Except.pure]
  | cons a as ih => simp [List.foldlM_cons, Text.takeOperand, bind, Except.bind, ih]

theorem foldlM_labels (ls : List String) (acc : Operation) :
    (ls.map Operand.label).foldlM (takeOperand line) acc = .ok { acc with labels := acc.labels ++ ls } := by
  induction ls generalizing acc with
  | nil => simp [pure, Except.pure]
  | cons l ls ih => simp [List.foldlM_cons, Text.takeOperand, bind, Except.bind, ih]

theorem foldlM_operands (ho : o.Textual) :
    o.operands.foldlM (takeOperand line) { o with args := [], labels := [], funcs := [], value := none } = .ok o := by
  simp only [Operation.operands, List.foldlM_append, foldlM_funcs, foldlM_args, foldlM_labels, bind, Except.bind,
    List.nil_append]
  cases hv : o.value with
  | none =>
    simp only [Option.map_none, Option.toList_none, List.foldlM_nil]
    cases o
    simp_all [pure, Except.pure]
  | some v =>
    -- the value comes last, on a `const` that has none yet
    have const : o.isConst = true := by rw [← ho.value, hv]; rfl
    simp only [Option.map_some, Option.toList_some, List.foldlM_cons, List.foldlM_nil, Text.takeOperand]
    have taken : Operation.isConst { o with value := none, args := o.args, labels := o.labels, funcs := o.funcs } = true :=
      const
    rw [taken, (ho.literal v hv).value?_token]
    cases o
    simp only at hv
    subst hv
    rfl

theorem Operation.Textual.start (ho : o.Textual) :
    ({ op := o.op, dest := (o.dest.map (·, o.ty)).map (·.1), ty := (o.dest.map (·, o.ty)).bind (·.2) } :
      Operation) = { o with args := [], labels := [], funcs := [], value := none } := by
  cases hd : o.dest with
  | none =>
    -- a type stands only after a destination
    have untyped : o.ty = none := by
      cases ht : o.ty with
      | none => rfl
      | some t =>
        have := (ho.ty t ht).2
        rw [hd] at this
        cases this
    simp [untyped]
  | some d => simp

/-- An operation with a text is read back from its syntax. -/
theorem lowerInstr_syntaxAt (ho : o.Textual) (s : Array Char) (start : Nat) :
    lowerInstr s (o.syntaxAt start) = .ok o := by
  unfold lowerInstr
  dsimp only [Operation.syntaxAt]
  rw [ho.start, foldlM_operands ho]
  simp only [bind, Except.bind]
  split
  · rename_i const
    split
    · rename_i _ unvalued
      have := ho.value
      rw [unvalued, const] at this
      cases this
    · rename_i n intValued floatTyped
      exact absurd intValued (ho.floatConst floatTyped n)
    · rfl
  · rfl

end Sorting

section Functions

variable {s : Array Char} {ins : Instr} {f : Function} {fs : FunctionSyntax}

theorem lowerItem_syntaxAt (h : ins.Textual) (start : Nat) : lowerItem s (ins.syntaxAt start) = .ok ins := by
  cases ins with
  | label l => rfl
  | op o => simp [Instr.syntaxAt, lowerItem, lowerInstr_syntaxAt h, Functor.map, Except.map]

theorem lowerItem_textual {item : ItemSyntax} (h : item.Wellformed) (e : lowerItem s item = .ok ins) :
    ins.Textual := by
  cases item with
  | label l =>
    cases e
    exact h
  | instr i =>
    simp only [lowerItem] at e
    cases hi : lowerInstr s i with
    | error err =>
      rw [hi] at e
      cases e
    | ok o =>
      rw [hi] at e
      cases e
      exact lowerInstr_textual h hi

theorem mapM_lowerItem {instrs : List Instr} {items : List ItemSyntax} (hins : ∀ i ∈ instrs, i.Textual)
    (h : List.Forall₂ (fun i item => ∃ start, item = i.syntaxAt start) instrs items) :
    items.mapM (lowerItem s) = .ok instrs := by
  induction h with
  | nil => rfl
  | @cons i item instrs items written _ ih =>
    obtain ⟨start, rfl⟩ := written
    rw [List.mapM_cons, lowerItem_syntaxAt (hins i List.mem_cons_self),
      ih fun j hj => hins j (List.mem_cons_of_mem i hj)]
    rfl

theorem lowerFunction_writtenAs (hf : f.Textual) (w : f.WrittenAs fs) : lowerFunction s fs = .ok f := by
  unfold lowerFunction
  rw [mapM_lowerItem hf.instrs w.items, w.name, w.args, w.ret, List.map_map]
  cases f
  simp [pure, Except.pure, bind, Except.bind, Function.comp_def]

theorem lowerFunction_textual (hfs : fs.Wellformed) (e : lowerFunction s fs = .ok f) : f.Textual := by
  unfold lowerFunction at e
  cases h : fs.items.mapM (lowerItem s) with
  | error err =>
    rw [h] at e
    cases e
  | ok instrs =>
    rw [h] at e
    cases e
    refine ⟨hfs.name, ?_, hfs.ret, ?_⟩
    · intro a ha
      obtain ⟨⟨n, t⟩, hnt, rfl⟩ := List.mem_map.mp ha
      exact hfs.args _ hnt
    · intro i hi
      obtain ⟨item, hitem, lowered⟩ := Cfg.exists_of_mapM_ok h hi
      exact lowerItem_textual (hfs.items item hitem) lowered

theorem mapM_lowerFunction {fns : List Function} {fss : List FunctionSyntax} (hfns : ∀ f ∈ fns, f.Textual)
    (h : List.Forall₂ Function.WrittenAs fns fss) : fss.mapM (lowerFunction s) = .ok fns := by
  induction h with
  | nil => rfl
  | @cons f fs fns fss written _ ih =>
    rw [List.mapM_cons, lowerFunction_writtenAs (hfns f List.mem_cons_self) written,
      ih fun g hg => hfns g (List.mem_cons_of_mem f hg)]
    rfl

end Functions

section Programs

variable {p : Program}

/-- A program with a text is read back from its text. -/
theorem ofText_text (hp : p.Textual) : Text.Program.ofText p.text = .ok p := by
  have chars : p.text.toList.toArray.toList = p.text.toList := List.toList_toArray
  obtain ⟨fs, written, read⟩ := parses_program hp chars
  have parsed : parseFunctions p.text.toList.toArray = .ok fs := by
    unfold parseFunctions
    rw [read.run]
  unfold Text.Program.ofText
  simp only [parsed, mapM_lowerFunction hp written]
  rfl

/-- The program the reader gives from any text has a text. -/
theorem textual_of_ofText {text : String} (e : Text.Program.ofText text = .ok p) : p.Textual := by
  unfold Text.Program.ofText at e
  dsimp only at e
  split at e
  · cases e
  · rename_i fs parsed
    unfold parseFunctions at parsed
    split at parsed
    · rename_i fs' run
      cases parsed
      have wellformed := (yields_program _).run run
      cases h : fs.mapM (lowerFunction text.toList.toArray) with
      | error err =>
        simp only [h, bind, Except.bind] at e
        cases e
      | ok fns =>
        simp only [h, bind, Except.bind, pure, Except.pure] at e
        cases e
        intro f hf
        obtain ⟨syn, hsyn, lowered⟩ := Cfg.exists_of_mapM_ok h hf
        exact lowerFunction_textual (wellformed syn hsyn) lowered
    · cases parsed

/-- The text reader accepts exactly the programs with a text, and on them it inverts the text
form: a program with a text is read back from its text, and whatever program the reader gives
from any text has a text. -/
theorem parseText_text_and_results_textual :
    (∀ p : Program, p.Textual → Program.parseText p.text = .ok p) ∧
      ∀ (text : String) (p : Program), Program.parseText text = .ok p → p.Textual :=
  ⟨fun _ hp => ofText_text hp, fun _ _ e => textual_of_ofText e⟩

/-- One function that returns its argument, through a constant, a jump and a label. -/
def identityProgram : Program where
  functions := [{
    name := "id"
    args := [⟨"n", .primitive "int"⟩]
    ret := some (.primitive "int")
    instrs := [.op { op := "const", dest := some "one", ty := some (.primitive "int"), value := some (.int 1) },
      .op { op := "jmp", labels := ["done"] }, .label "done", .op { op := "ret", args := ["n"] }] }]

theorem parseText_text_and_results_textual_identity :
    Program.parseText identityProgram.text = .ok identityProgram ∧ identityProgram.Textual := by
  have textual : identityProgram.Textual := by
    intro f hf
    simp only [identityProgram, List.mem_singleton] at hf
    subst hf
    refine ⟨by decide, ?_, ?_, ?_⟩
    · simp only [List.mem_singleton, forall_eq]
      exact ⟨by decide, .primitive (by decide)⟩
    · simp only [Option.mem_def, Option.some.injEq, forall_eq']
      exact .primitive (by decide)
    intro i hi
    simp only [List.mem_cons, List.mem_nil_iff, or_false] at hi
    rcases hi with rfl | rfl | rfl | rfl
    · exact { op := by decide, dest := by simp; decide, ty := by simp; exact .primitive (by decide),
              args := by simp, labels := by simp, funcs := by simp, literal := by simp; exact (by decide : Literal.intMin ≤ 1 ∧ 1 ≤ Literal.intMax),
              value := by decide, floatConst := by simp }
    · exact { op := by decide, dest := by simp, ty := by simp, args := by simp, labels := by simp; decide,
              funcs := by simp, literal := by simp, value := by decide, floatConst := by simp }
    · show isName "done"
      decide
    · exact { op := by decide, dest := by simp, ty := by simp, args := by simp; decide, labels := by simp,
              funcs := by simp, literal := by simp, value := by decide, floatConst := by simp }
  have read := parseText_text_and_results_textual.1 _ textual
  exact ⟨read, parseText_text_and_results_textual.2 _ _ read⟩

end Programs

end BrilFlow
