import BrilFlow.Proofs.TextOperands

/-! The rules of Bril text: on the text of a program each rule reads the part written for it, and
on any text whatever a rule gives is well formed. -/
namespace BrilFlow

open Text Text.Peg

def Operation.syntaxAt (o : Operation) (start : Nat) : InstrSyntax :=
  { start, dest := o.dest.map (·, o.ty), opcode := o.op, operands := o.operands }

def Instr.syntaxAt : Instr → Nat → ItemSyntax
  | .label l, _ => .label l
  | .op o, start => .instr (o.syntaxAt start)

/-- A function's syntax as its text is read: its name, arguments and return type, and its
instructions each read where it starts. -/
structure Function.WrittenAs (f : Function) (fs : FunctionSyntax) : Prop where
  name : fs.name = f.name
  args : fs.args = f.args.map fun a => (a.name, a.ty)
  ret : fs.ret = f.ret
  items : List.Forall₂ (fun i item => ∃ start, item = i.syntaxAt start) f.instrs fs.items

structure Text.InstrSyntax.Wellformed (i : InstrSyntax) : Prop where
  dest : ∀ d ∈ i.dest, isIdent d.1 ∧ ∀ t ∈ d.2, t.Textual
  opcode : isOpcode i.opcode
  operands : ∀ x ∈ i.operands, x.Wellformed

def Text.ItemSyntax.Wellformed : ItemSyntax → Prop
  | .label l => isName l
  | .instr i => i.Wellformed

structure Text.FunctionSyntax.Wellformed (f : FunctionSyntax) : Prop where
  name : isName f.name
  args : ∀ a ∈ f.args, isIdent a.1 ∧ a.2.Textual
  ret : ∀ t ∈ f.ret, t.Textual
  items : ∀ i ∈ f.items, i.Wellformed

namespace Text

variable {α β : Type} {s : Array Char} {i j k : Nat} {r : List Char}

section Skip

def isBlank (c : Char) : Prop := c = ' ' ∨ c = '\n'

theorem parses_skip_stop (h : ∀ x ∈ (s.toList.drop i).head?, isTrivia x = false) :
    Parses skip s i () i := by
  have read := parses_skip (s := s) (i := i)
  rwa [skipTrivia_stop h] at read

theorem skipTrivia_at {x : Char} (h : s.toList.drop i = x :: r) (hx : isTrivia x = false) :
    skipTrivia s i false = i :=
  skipTrivia_stop (by rw [h]; exact forall_head?_cons hx)

theorem parses_skip_at {x : Char} (h : s.toList.drop i = x :: r) (hx : isTrivia x = false) :
    Parses skip s i () i :=
  parses_skip_stop (by rw [h]; exact forall_head?_cons hx)

theorem skipTrivia_gap {gap : List Char} (h : s.toList.drop i = gap ++ r)
    (blank : ∀ x ∈ gap, isBlank x) (stop : ∀ x ∈ r.head?, isTrivia x = false) :
    skipTrivia s i false = i + gap.length := by
  rw [skipTrivia_blanks h blank, skipTrivia_stop (by rwa [drop_add_of_drop_eq h])]

theorem parses_skip_gap {gap : List Char} (h : s.toList.drop i = gap ++ r)
    (blank : ∀ x ∈ gap, isBlank x) (stop : ∀ x ∈ r.head?, isTrivia x = false) :
    Parses skip s i () (i + gap.length) := by
  have read := parses_skip (s := s) (i := i)
  rwa [skipTrivia_gap h blank stop] at read

theorem isTrivia_of_isAlpha {c : Char} (h : c.isAlpha = true) : isTrivia c = false := by
  simp only [isTrivia, Bool.or_eq_false_iff, beq_eq_false_iff_ne]
  refine ⟨⟨⟨⟨?_, ?_⟩, ?_⟩, ?_⟩, ?_⟩ <;> rintro rfl <;> cases h

theorem isTrivia_of_identHead {c : Char} (h : (c.isAlpha || c == '_') = true) : isTrivia c = false := by
  simp only [Bool.or_eq_true, beq_iff_eq] at h
  rcases h with alpha | rfl
  · exact isTrivia_of_isAlpha alpha
  · decide

end Skip

section Repeated

variable {p : P α} {a : α} {as : List α}

theorem parses_repeated_nil (h : Fails p s i) : Parses (repeated p) s i [] i :=
  (Fails.optional h).bind parses_pure

theorem parses_repeated_cons (first : Parses p s i a k)
    (rest : Parses (many (skip >>= fun _ => p)) s k as j) : Parses (repeated p) s i (a :: as) j :=
  first.optional.bind (rest.bind parses_pure)

theorem Yields.repeated {P' : α → Prop} (h : Yields p s P') :
    Yields (repeated p) s fun as => ∀ a ∈ as, P' a := by
  refine h.optional.bind fun o ho => ?_
  cases o with
  | none => exact yields_pure (by simp)
  | some a =>
    refine (Yields.bind_right fun _ => h).many.bind fun as has => yields_pure ?_
    intro b hb
    rcases List.mem_cons.mp hb with rfl | hb
    · exact ho b rfl
    · exact has b hb

end Repeated

section Spaced

variable {p : P α} {R : β → α → Prop} {gap core trail : β → List Char} {items : List β}

def spacedText (gap core trail : β → List Char) (items : List β) : List Char :=
  items.flatMap fun x => gap x ++ core x ++ trail x

@[simp] theorem spacedText_nil : spacedText gap core trail [] = [] := rfl

@[simp] theorem spacedText_cons {x : β} :
    spacedText gap core trail (x :: items) = gap x ++ core x ++ trail x ++ spacedText gap core trail items :=
  rfl

/-- What `p` needs to read `items` written with `gap`s and `trail`s of blanks around their
`core`s: each core starts with no blank, and from its start `p` reads it whole, giving a value
related to the item, when what follows is the next item or the end `r`. -/
structure Spaced (p : P α) (R : β → α → Prop) (s : Array Char) (gap core trail : β → List Char)
    (items : List β) (r : List Char) : Prop where
  blank : ∀ x ∈ items, ∀ c ∈ gap x ++ trail x, isBlank c
  start : ∀ x ∈ items, ∃ c cs, core x = c :: cs ∧ isTrivia c = false
  reads : ∀ x ∈ items, ∀ k rest, s.toList.drop k = core x ++ trail x ++ rest →
    (rest = r ∨ ∃ y ∈ items, ∃ rest', rest = gap y ++ core y ++ rest') →
    ∃ a, R x a ∧ Parses p s k a (k + (core x).length)

theorem Spaced.tail {x : β} (sp : Spaced p R s gap core trail (x :: items) r) :
    Spaced p R s gap core trail items r where
  blank y hy := sp.blank y (List.mem_cons_of_mem x hy)
  start y hy := sp.start y (List.mem_cons_of_mem x hy)
  reads y hy k rest h next := sp.reads y (List.mem_cons_of_mem x hy) k rest h
    (next.imp_right fun ⟨z, hz, more⟩ => ⟨z, List.mem_cons_of_mem x hz, more⟩)

theorem Spaced.first {x : β} (sp : Spaced p R s gap core trail (x :: items) r)
    {pre : List Char} (blank : ∀ c ∈ pre, isBlank c)
    (h : s.toList.drop k = pre ++ spacedText gap core trail (x :: items) ++ r) :
    skipTrivia s k false = k + pre.length + (gap x).length ∧
      ∃ a, R x a ∧ Parses p s (k + pre.length + (gap x).length) a
        (k + pre.length + (gap x).length + (core x).length) := by
  obtain ⟨c, cs, hcore, hc⟩ := sp.start x List.mem_cons_self
  have at_gap : s.toList.drop k = (pre ++ gap x) ++
      (core x ++ trail x ++ (spacedText gap core trail items ++ r)) := by
    simpa using h
  have skipped := skipTrivia_gap at_gap
    (fun y hy => (List.mem_append.mp hy).elim (blank y)
      fun hy => sp.blank x List.mem_cons_self y (List.mem_append_left _ hy))
    (by simpa [hcore] using hc)
  refine ⟨by simpa [Nat.add_assoc] using skipped, ?_⟩
  have at_core := drop_add_of_drop_eq at_gap
  rw [List.length_append, ← Nat.add_assoc] at at_core
  refine sp.reads x List.mem_cons_self _ _ at_core ?_
  cases items with
  | nil => exact .inl (by simp)
  | cons y items =>
    exact .inr ⟨y, List.mem_cons_of_mem x List.mem_cons_self,
      trail y ++ (spacedText gap core trail items ++ r), by simp⟩

theorem Spaced.repeats (sp : Spaced p R s gap core trail items r) {pre : List Char}
    (blank : ∀ c ∈ pre, isBlank c)
    (h : s.toList.drop k = pre ++ spacedText gap core trail items ++ r)
    (stop : Fails p s (skipTrivia s (k + pre.length + (spacedText gap core trail items).length) false)) :
    ∃ as e, List.Forall₂ R items as ∧ Repeats (skip >>= fun _ => p) s k as e ∧
      skipTrivia s e false = skipTrivia s (k + pre.length + (spacedText gap core trail items).length) false ∧
      e ≤ k + pre.length + (spacedText gap core trail items).length := by
  induction items generalizing k pre with
  | nil =>
    have skipped := skipTrivia_blanks (by simpa using h) blank
    refine ⟨[], k, .nil, .stop (parses_skip.bind_fails ?_), ?_, by omega⟩
    · simpa [skipped] using stop
    · simpa using skipped
  | cons x items ih =>
    obtain ⟨skipped, a, related, read⟩ := sp.first blank h
    have at_trail : s.toList.drop (k + pre.length + (gap x).length + (core x).length) =
        trail x ++ spacedText gap core trail items ++ r := by
      have := drop_add_of_drop_eq (w := pre ++ gap x ++ core x)
        (r := trail x ++ spacedText gap core trail items ++ r) (by simpa using h)
      simpa [Nat.add_assoc] using this
    have past : k + pre.length + (spacedText gap core trail (x :: items)).length =
        k + pre.length + (gap x).length + (core x).length + (trail x).length +
          (spacedText gap core trail items).length := by
      simp only [spacedText_cons, List.length_append]
      omega
    obtain ⟨as, e, rel, run, ends, le⟩ := ih sp.tail
      (fun c hc => sp.blank x List.mem_cons_self c (List.mem_append_right _ hc)) at_trail
      (by rwa [← past])
    obtain ⟨c, cs, hcore, _⟩ := sp.start x List.mem_cons_self
    have nonempty : 0 < (core x).length := by simp [hcore]
    refine ⟨a :: as, e, .cons related rel, .step ((parses_skip (s := s) (i := k)).bind
      (by rw [skipped]; exact read)) (by omega) run, by rw [ends, past], by omega⟩

/-- `repeated p`, from where `skip` leaves it, reads all the items and stops at their end. -/
theorem Spaced.parses (sp : Spaced p R s gap core trail items r)
    (h : s.toList.drop k = spacedText gap core trail items ++ r)
    (stop : Fails p s (skipTrivia s (k + (spacedText gap core trail items).length) false)) :
    ∃ as e, List.Forall₂ R items as ∧ Parses (repeated p) s (skipTrivia s k false) as e ∧
      skipTrivia s e false = skipTrivia s (k + (spacedText gap core trail items).length) false := by
  cases items with
  | nil =>
    refine ⟨[], _, .nil, parses_repeated_nil (by simpa using stop), ?_⟩
    simp [skipTrivia_idem]
  | cons x items =>
    obtain ⟨skipped, a, related, read⟩ := sp.first (show ∀ c ∈ ([] : List Char), isBlank c by simp)
      (by simpa using h)
    have at_trail : s.toList.drop (k + (gap x).length + (core x).length) =
        trail x ++ spacedText gap core trail items ++ r := by
      have := drop_add_of_drop_eq (w := gap x ++ core x)
        (r := trail x ++ spacedText gap core trail items ++ r) (by simpa using h)
      simpa [Nat.add_assoc] using this
    have past : k + (spacedText gap core trail (x :: items)).length =
        k + (gap x).length + (core x).length + (trail x).length +
          (spacedText gap core trail items).length := by
      simp only [spacedText_cons, List.length_append]
      omega
    obtain ⟨as, e, rel, run, ends, le⟩ := sp.tail.repeats
      (fun c hc => sp.blank x List.mem_cons_self c (List.mem_append_right _ hc)) at_trail
      (by rwa [← past])
    have fits : as.length ≤ s.size := by
      have runLength := run.length_add_le
      have textLength := length_le_of_drop_eq h
      simp only [spacedText_cons, List.length_append] at textLength
      omega
    refine ⟨a :: as, e, .cons related rel, ?_, by rw [ends, past]⟩
    simp only [List.length_nil, Nat.add_zero] at skipped read
    rw [skipped]
    exact parses_repeated_cons read (run.many fits)

end Spaced

end Text

section Texts

variable {o : Operation}

theorem render_param (name : String) (t : Ty) :
    (Ty.param name t).render = name ++ "<" ++ t.render ++ ">" := by
  simp [Ty.param, Ty.render, Ty.renderParams]

theorem Ty.Textual.render_head {t : Ty} (ht : t.Textual) :
    ∃ c cs, t.render.toList = c :: cs ∧ c.isAlpha = true := by
  cases ht with
  | primitive hname => exact isWord_head hname
  | @param name t hname _ =>
    obtain ⟨c, cs, e, alpha⟩ := isWord_head hname
    exact ⟨c, cs ++ '<' :: (t.render.toList ++ ['>']), by simp [render_param, e], alpha⟩

theorem Operation.text_toList (o : Operation) :
    o.text.toList = o.headText.toList ++ o.op.toList ++
      spacedText (fun _ => [' ']) (fun x => x.text.toList) (fun _ => []) o.operands ++ [';'] := by
  simp [Operation.text, String.toList_join, spacedText, List.flatMap_map]

theorem Operation.Textual.writable (ho : o.Textual) : ∀ x ∈ o.operands, x.Writable := by
  intro x hx
  simp only [Operation.operands, List.mem_append, List.mem_map, Option.mem_toList,
    Option.map_eq_some_iff] at hx
  rcases hx with ((⟨f, hf, rfl⟩ | ⟨a, ha, rfl⟩) | ⟨l, hl, rfl⟩) | ⟨v, hv, rfl⟩
  · exact ho.funcs f hf
  · exact ho.args a ha
  · exact ho.labels l hl
  · exact ⟨v, ho.literal v hv, rfl⟩

theorem Operation.Textual.text_head (ho : o.Textual) :
    ∃ c, o.text.toList.head? = some c ∧ (c.isAlpha || c == '_') = true := by
  rw [Operation.text_toList]
  cases hd : o.dest with
  | none =>
    obtain ⟨c, cs, e, alpha⟩ := isWord_head ho.op
    exact ⟨c, by simp [Operation.headText, hd, e], by simp [alpha]⟩
  | some d =>
    obtain ⟨c, cs, e, first⟩ := isWord_head (ho.dest d hd)
    exact ⟨c, by simp [Operation.headText, hd, e], first⟩

theorem Instr.Textual.text_start {ins : Instr} (h : ins.Textual) :
    ∃ c cs, ins.text.toList = c :: cs ∧ isTrivia c = false := by
  cases ins with
  | label l => exact ⟨'.', l.toList ++ [':'], by simp [Instr.text], by decide⟩
  | op o =>
    obtain ⟨c, hc, first⟩ := Operation.Textual.text_head h
    obtain ⟨cs, e⟩ := List.head?_eq_some_iff.mp hc
    exact ⟨c, cs, e, isTrivia_of_identHead first⟩

def Text.bodyText (instrs : List Instr) : List Char :=
  spacedText (fun i : Instr => i.indent.toList) (fun i => i.text.toList) (fun _ => ['\n']) instrs

theorem Function.text_toList (f : Function) :
    f.text.toList = "@".toList ++ f.name.toList ++ ((argsText f.args).toList ++ ((retText f.ret).toList ++
      (" \x7b".toList ++ '\n' :: (bodyText f.instrs ++ ['\x7d'])))) := by
  simp [Function.text, bodyText, spacedText, String.toList_join, List.flatMap_map]

theorem Program.text_toList (p : Program) :
    p.text.toList = spacedText (fun _ => []) (fun f : Function => f.text.toList) (fun _ => ['\n']) p.functions := by
  simp [Program.text, spacedText, String.toList_join, List.flatMap_map]

end Texts

namespace Text

variable {s : Array Char} {i j k : Nat} {r : List Char}

section Types

/-- A type is read from its text when no type name character follows, and after the blanks that
follow no `<`; it stops at the end of its text or past the blanks after it, and `skip` then goes
on from the same place either way. -/
theorem parses_ty {t : Ty} (ht : t.Textual) {fuel : Nat} (enough : t.render.toList.length ≤ fuel)
    (h : s.toList.drop i = t.render.toList ++ r)
    (noName : ∀ x ∈ r.head?, (x.isAlphanum || x == '_') = false)
    (noParam : ∀ x ∈ (s.toList.drop (skipTrivia s (i + t.render.toList.length) false)).head?, x ≠ '<') :
    ∃ j, Parses (ty fuel) s i t j ∧ i + t.render.toList.length ≤ j ∧
      skipTrivia s j false = skipTrivia s (i + t.render.toList.length) false := by
  induction ht generalizing i r fuel with
  | @primitive name hname =>
    obtain ⟨c, cs, e, _⟩ := isWord_head hname
    obtain ⟨fuel, rfl⟩ : ∃ f, fuel = f + 1 :=
      ⟨fuel - 1, by simp only [Ty.render, e, List.length_cons] at enough; omega⟩
    have nameRead := parses_tyName h hname noName
    have noInner := (fails_text (t := "<") (not_prefix_of_ne (m := '<') noParam)).bind (f := fun _ =>
      skip >>= fun _ => ty fuel >>= fun t => skip >>= fun _ => text ">" >>= fun _ => pure t)
    refine ⟨_, Parses.rule (nameRead.bind (parses_skip.bind ((Fails.optional noInner).bind ?_))),
      le_skipTrivia false, skipTrivia_idem⟩
    exact parses_pure
  | @param name t hname ht ih =>
    obtain ⟨d, ds, et, alphaT⟩ := ht.render_head
    have text : (Ty.param name t).render.toList = name.toList ++ '<' :: (t.render.toList ++ ['>']) := by
      simp [render_param]
    have total : (Ty.param name t).render.toList.length =
        name.toList.length + 1 + t.render.toList.length + 1 := by
      simp only [text, List.length_append, List.length_cons, List.length_nil]
      omega
    obtain ⟨fuel, rfl⟩ : ∃ f, fuel = f + 1 := ⟨fuel - 1, by omega⟩
    have at_name : s.toList.drop i = name.toList ++ ('<' :: (t.render.toList ++ '>' :: r)) := by
      rw [h, text]
      simp
    have at_open : s.toList.drop (i + name.toList.length) = "<".toList ++ (t.render.toList ++ '>' :: r) :=
      drop_add_of_drop_eq at_name
    have at_inner : s.toList.drop (i + name.toList.length + 1) = t.render.toList ++ ('>' :: r) :=
      drop_add_of_drop_eq at_open
    have at_close : s.toList.drop (i + name.toList.length + 1 + t.render.toList.length) = ">".toList ++ r :=
      drop_add_of_drop_eq at_inner
    have closeStop : skipTrivia s (i + name.toList.length + 1 + t.render.toList.length) false =
        i + name.toList.length + 1 + t.render.toList.length :=
      skipTrivia_stop (by rw [at_close]; simp [isTrivia])
    have nameRead := parses_tyName at_name hname (by simp)
    obtain ⟨j, innerRead, -, innerEnd⟩ := ih (by omega : t.render.toList.length ≤ fuel) at_inner (by simp) (by rw [closeStop, at_close]; simp)
    rw [closeStop] at innerEnd
    have skipInner : Parses skip s j () (i + name.toList.length + 1 + t.render.toList.length) := by
      have read := parses_skip (s := s) (i := j)
      rwa [innerEnd] at read
    have openSkip := parses_skip_stop (s := s) (i := i + name.toList.length) (by rw [at_open]; simp [isTrivia])
    have innerSkip := parses_skip_stop (s := s) (i := i + name.toList.length + 1)
      (by rw [at_inner, et]; simp [isTrivia_of_isAlpha alphaT])
    refine ⟨i + name.toList.length + 1 + t.render.toList.length + 1, Parses.rule (nameRead.bind
      (openSkip.bind (Parses.bind (Parses.optional ((parses_text at_open).bind (innerSkip.bind
        (innerRead.bind (skipInner.bind ((parses_text at_close).bind (parses_pure (a := t)))))))) ?_))),
      by rw [total]; omega, ?_⟩
    · exact parses_pure
    · rw [total]
      congr 1
      omega

/-- Followed by a character that is no blank and no `<`, nor one of a type name, a type ends
right after its text. -/
theorem parses_ty_exact {t : Ty} (ht : t.Textual) {fuel : Nat} (enough : t.render.toList.length ≤ fuel)
    {x : Char} (h : s.toList.drop i = t.render.toList ++ x :: r)
    (stop : (x.isAlphanum || x == '_') = false ∧ isTrivia x = false ∧ x ≠ '<') :
    Parses (ty fuel) s i t (i + t.render.toList.length) := by
  have atEnd := skipTrivia_stop (s := s) (i := i + t.render.toList.length)
    (by rw [drop_add_of_drop_eq h]; exact forall_head?_cons stop.2.1)
  obtain ⟨j, read, le, ends⟩ := parses_ty ht enough h (forall_head?_cons stop.1)
    (by rw [atEnd, drop_add_of_drop_eq h]; exact forall_head?_cons stop.2.2)
  have := le_skipTrivia (s := s) (i := j) false
  rw [atEnd] at ends
  rwa [show j = i + t.render.toList.length by omega] at read

theorem yields_ty (fuel : Nat) : Yields (ty fuel) s Ty.Textual := by
  induction fuel with
  | zero => exact fun _ _ never => by cases never
  | succ fuel ih =>
    refine Yields.rule (yields_tyName.bind fun name hname => Yields.bind_right fun _ => ?_)
    refine (Yields.optional (P := Ty.Textual) ?_).bind fun param hparam => yields_pure ?_
    · exact Yields.bind_right fun _ => .bind_right fun _ =>
        ih.bind fun t ht => .bind_right fun _ => .bind_right fun _ => yields_pure ht
    · cases param with
      | none => exact .primitive hname
      | some t => exact .param hname (hparam t rfl)

end Types

section Instructions

variable {o : Operation} {x : Operand}

/-- Characters a part of an instruction may start with: no blank, and neither the `:` nor
the `=` of an instruction's head. -/
def opensPart (c : Char) : Bool := !isTrivia c && c != ':' && c != '='

theorem opensPart_iff {c : Char} : opensPart c ↔ isTrivia c = false ∧ c ≠ ':' ∧ c ≠ '=' := by
  simp [opensPart, and_assoc]

theorem opensPart_of_isDigit {c : Char} (h : c.isDigit = true) : opensPart c := by
  refine opensPart_iff.mpr ⟨?_, ?_, ?_⟩
  · simp only [isTrivia, Bool.or_eq_false_iff, beq_eq_false_iff_ne]
    refine ⟨⟨⟨⟨?_, ?_⟩, ?_⟩, ?_⟩, ?_⟩ <;> rintro rfl <;> cases h
  all_goals rintro rfl; cases h

theorem opensPart_of_ident {c : Char} (h : (c.isAlpha || c == '_') = true) : opensPart c := by
  rcases Bool.or_eq_true_iff.mp h with alpha | under
  · refine opensPart_iff.mpr ⟨isTrivia_of_isAlpha alpha, ?_, ?_⟩ <;> rintro rfl <;> cases alpha
  · obtain rfl := beq_iff_eq.mp under
    decide

theorem Operand.Writable.text_head (hx : x.Writable) :
    ∃ c cs, x.text.toList = c :: cs ∧ opensPart c := by
  cases x with
  | literal tok =>
    obtain ⟨v, hv, rfl⟩ := hx
    cases v with
    | bool b => cases b <;> exact ⟨_, _, rfl, by decide⟩
    | int n =>
      obtain ⟨neg, d, e, hd⟩ := intShape_toString n
      cases d with
      | nil => cases hd
      | cons y d =>
        have hy : y.isDigit = true := by simp_all
        cases neg
        · exact ⟨y, d, by simpa [Operand.text, Literal.token, LiteralToken.text] using e, opensPart_of_isDigit hy⟩
        · exact ⟨'-', y :: d, by simpa [Operand.text, Literal.token, LiteralToken.text] using e, by decide⟩
    | float bits =>
      obtain ⟨neg, whole, frac, expo, e, hwhole, _⟩ := floatShape_floatText hv
      cases whole with
      | nil => cases hwhole
      | cons y whole =>
        have hy : y.isDigit = true := by simp_all
        cases neg
        · exact ⟨y, _, by simpa [Operand.text, Literal.token, LiteralToken.text] using e, opensPart_of_isDigit hy⟩
        · exact ⟨'-', _, by simpa [Operand.text, Literal.token, LiteralToken.text] using e, by decide⟩
    | char c => exact ⟨'\'', [c, '\''], by simp [Operand.text, Literal.token, LiteralToken.text], by decide⟩
  | label l => exact ⟨'.', l.toList, by simp [Operand.text], by decide⟩
  | func f => exact ⟨'@', f.toList, by simp [Operand.text], by decide⟩
  | ident a =>
    obtain ⟨c, cs, e, hc⟩ := isWord_head hx.1
    exact ⟨c, cs, e, opensPart_of_ident hc⟩

theorem parses_operands (ho : o.Textual) {rest : List Char}
    (h : s.toList.drop k =
      spacedText (fun _ => [' ']) (fun x => x.text.toList) (fun _ => []) o.operands ++ ';' :: rest) :
    ∃ e, Parses (repeated operand) s (skipTrivia s k false) o.operands e ∧
      skipTrivia s e false =
        k + (spacedText (fun _ => [' ']) (fun x => x.text.toList) (fun _ => []) o.operands).length := by
  have at_end := drop_add_of_drop_eq h
  have atSemicolon := skipTrivia_stop (s := s) (by rw [at_end]; exact forall_head?_cons (by decide))
  have spaced : Spaced operand Eq s (fun _ => [' ']) (fun x => x.text.toList) (fun _ => [])
      o.operands (';' :: rest) := by
    refine ⟨fun _ _ c hc => by simp_all [isBlank], fun x hx => ?_, fun x hx k' rest' h' next => ?_⟩
    · obtain ⟨c, cs, e, opens⟩ := (ho.writable x hx).text_head
      exact ⟨c, cs, e, (opensPart_iff.mp opens).1⟩
    · refine ⟨x, rfl, parses_operand (ho.writable x hx) (by simpa using h') ?_⟩
      rcases next with rfl | ⟨y, _, rest'', rfl⟩ <;> exact forall_head?_cons (by decide)
  obtain ⟨as, e, same, read, ends⟩ := spaced.parses h (fails_operand (by rwa [atSemicolon]))
  rw [List.forall₂_eq_eq_eq] at same
  subst same
  exact ⟨e, read, by rw [ends, atSemicolon]⟩

theorem isIdent_of_isOpcode {t : String} (h : isOpcode t) : isIdent t := by
  unfold isOpcode isIdent isWord at *
  split at h
  · simp only [Bool.and_eq_true] at h ⊢
    exact ⟨by simp [h.1], h.2⟩
  · cases h

/-- The head `dest: ty =` of an operation's text is read as its destination and type. Without
a destination there is no head: the head rule reads the opcode as a destination and then finds
neither `:` nor `=`. Either way `skip` then stands at the opcode. -/
theorem parses_head (ho : o.Textual) {fuel : Nat} (enough : o.headText.toList.length ≤ fuel)
    {rest : List Char} (h : s.toList.drop i = o.headText.toList ++ o.op.toList ++ rest)
    (after : ∀ x ∈ rest.head?, isNameChar x = false)
    (next : o.dest = none → ∀ x ∈ (s.toList.drop (skipTrivia s (i + o.op.toList.length) false)).head?,
      x ≠ ':' ∧ x ≠ '=') :
    ∃ e, Parses (optional do
        let d ← dest
        skip
        let t ← optional do
          text ":"
          skip
          ty fuel
        skip
        text "="
        pure (d, t) : P (Option (String × Option Ty))) s i (o.dest.map (·, o.ty)) e ∧
      skipTrivia s e false = i + o.headText.toList.length := by
  obtain ⟨c, cs, eop, alpha⟩ := isWord_head ho.op
  -- the opcode starts with a letter, where `skip` stops
  have opStart : ∀ k rest', s.toList.drop k = [' '] ++ (o.op.toList ++ rest') →
      skipTrivia s k false = k + 1 := fun k rest' hk =>
    skipTrivia_gap hk (by simp [isBlank]) (by rw [eop]; exact forall_head?_cons (isTrivia_of_isAlpha alpha))
  have noType : ∀ k, (∀ x ∈ (s.toList.drop k).head?, x ≠ ':') →
      Fails (text ":" >>= fun _ => skip >>= fun _ => ty fuel : P Ty) s k :=
    fun k hk => (fails_text (t := ":") (not_prefix_of_ne (m := ':') hk)).bind
  rcases hd : o.dest with _ | d
  · -- no destination, so no type either
    replace next := next hd
    have hhead : o.headText = "" := by simp [Operation.headText, hd]
    rw [hhead] at h ⊢
    have at_op : s.toList.drop i = o.op.toList ++ rest := by simpa using h
    have opEnd := skipTrivia_idem (s := s) (i := i + o.op.toList.length)
    have atNext : Parses skip s (skipTrivia s (i + o.op.toList.length) false) ()
        (skipTrivia s (i + o.op.toList.length) false) := by
      have read := parses_skip (s := s) (i := skipTrivia s (i + o.op.toList.length) false)
      rwa [opEnd] at read
    have noEq := fails_text (ρ := Rule) (t := "=") (not_prefix_of_ne (m := '=') fun x hx => (next x hx).2)
    refine ⟨i, Fails.optional ((parses_dest at_op (isIdent_of_isOpcode ho.op) after).bind_fails
      (parses_skip.bind_fails ((Fails.optional (noType _ fun x hx => (next x hx).1)).bind_fails
        (atNext.bind_fails noEq.bind)))), ?_⟩
    simpa using skipTrivia_stop (s := s) (i := i) (by rw [at_op, eop]; exact forall_head?_cons (isTrivia_of_isAlpha alpha))
  · have destRead : ∀ r', s.toList.drop i = d.toList ++ r' → (∀ x ∈ r'.head?, isNameChar x = false) →
        Parses dest s i d (i + d.toList.length) :=
      fun r' at_d stop => parses_dest at_d (ho.dest d hd) stop
    have equals : ∀ k rest', s.toList.drop k = "=".toList ++ rest' →
        (∀ x ∈ (s.toList.drop k).head?, x ≠ ':') ∧ ∀ x ∈ (s.toList.drop k).head?, isTrivia x = false :=
      fun k rest' hk => by rw [hk]; exact ⟨forall_head?_cons (by decide), forall_head?_cons (by decide)⟩
    rcases hty : o.ty with _ | t
    · -- `dest =`
      have hhead : o.headText = d ++ " = " := by simp [Operation.headText, hd, hty]
      rw [hhead] at h ⊢
      have at_d : s.toList.drop i = d.toList ++ (' ' :: '=' :: ' ' :: (o.op.toList ++ rest)) := by
        simpa using h
      have at_gap : s.toList.drop (i + d.toList.length) =
          [' '] ++ ("=".toList ++ ([' '] ++ (o.op.toList ++ rest))) := drop_add_of_drop_eq at_d
      have at_eq := drop_add_of_drop_eq at_gap
      have at_after := drop_add_of_drop_eq at_eq
      have gapSkip := parses_skip_gap at_gap (by simp [isBlank]) (forall_head?_cons (by decide))
      refine ⟨_, Parses.optional (a := (d, none)) ((destRead _ at_d (forall_head?_cons (by decide))).bind (gapSkip.bind
        ((Fails.optional (noType _ (equals _ _ at_eq).1)).bind ((parses_skip_stop (equals _ _ at_eq).2).bind
          ((parses_text at_eq).bind parses_pure))))), ?_⟩
      rw [opStart _ _ at_after]
      simp
      omega
    · -- `dest: ty =`
      have hhead : o.headText = d ++ ": " ++ t.render ++ " = " := by
        simp [Operation.headText, hd, hty, String.append_assoc]
      have textual := (ho.ty t hty).1
      obtain ⟨tc, tcs, et, talpha⟩ := textual.render_head
      rw [hhead] at h enough ⊢
      have at_d : s.toList.drop i =
          d.toList ++ (':' :: ' ' :: (t.render.toList ++ ' ' :: '=' :: ' ' :: (o.op.toList ++ rest))) := by
        simpa using h
      have at_colon : s.toList.drop (i + d.toList.length) = ":".toList ++
          ([' '] ++ (t.render.toList ++ ([' '] ++ ("=".toList ++ ([' '] ++ (o.op.toList ++ rest)))))) :=
        drop_add_of_drop_eq at_d
      have at_gap := drop_add_of_drop_eq at_colon
      have at_t := drop_add_of_drop_eq at_gap
      have at_tgap := drop_add_of_drop_eq at_t
      have at_eq := drop_add_of_drop_eq at_tgap
      have at_after := drop_add_of_drop_eq at_eq
      have colonSkip := parses_skip_stop (s := s) (i := i + d.toList.length)
        (by rw [at_colon]; exact forall_head?_cons (by decide))
      have gapSkip := parses_skip_gap at_gap (by simp [isBlank])
        (by rw [et]; exact forall_head?_cons (isTrivia_of_isAlpha talpha))
      have tEnd := skipTrivia_gap at_tgap (by simp [isBlank]) (forall_head?_cons (by decide))
      obtain ⟨j, tyRead, -, tyEnd⟩ := parses_ty textual
        (show t.render.toList.length ≤ fuel by simp at enough; omega) at_t
        (forall_head?_cons (by decide)) (by rw [tEnd, at_eq]; exact forall_head?_cons (by decide))
      have tySkip := parses_skip (s := s) (i := j)
      rw [tyEnd, tEnd] at tySkip
      refine ⟨_, Parses.optional (a := (d, some t)) ((destRead _ at_d (forall_head?_cons (by decide))).bind (colonSkip.bind
        (Parses.bind (Parses.optional ((parses_text at_colon).bind (gapSkip.bind tyRead)))
          (tySkip.bind ((parses_text at_eq).bind parses_pure))))), ?_⟩
      rw [opStart _ _ at_after]
      simp
      omega

theorem parses_instruction (ho : o.Textual) {fuel : Nat} (enough : o.text.toList.length ≤ fuel)
    {rest : List Char} (h : s.toList.drop i = o.text.toList ++ rest) :
    Parses (instruction fuel) s i (o.syntaxAt i) (i + o.text.toList.length) := by
  obtain ⟨c, cs, eop, alpha⟩ := isWord_head ho.op
  rw [Operation.text_toList] at h enough ⊢
  set ops := spacedText (fun _ => [' ']) (fun x : Operand => x.text.toList) (fun _ => []) o.operands
  have at_head : s.toList.drop i = o.headText.toList ++ o.op.toList ++ (ops ++ ';' :: rest) := by
    simpa using h
  have at_op : s.toList.drop (i + o.headText.toList.length) = o.op.toList ++ (ops ++ ';' :: rest) := by
    simpa using drop_add_of_drop_eq (w := o.headText.toList) (by simpa using h)
  have at_ops := drop_add_of_drop_eq at_op
  have at_semi := drop_add_of_drop_eq at_ops
  -- after the opcode come the operands, each after a blank, and then the `;`
  have afterOp : ∀ x ∈ (ops ++ ';' :: rest).head?, isNameChar x = false := by
    cases hops : o.operands with
    | nil => simp [ops, hops]; decide
    | cons y ys => simp [ops, hops]; decide
  have next : ∀ x ∈ (s.toList.drop (skipTrivia s (i + o.headText.toList.length + o.op.toList.length)
      false)).head?, x ≠ ':' ∧ x ≠ '=' := by
    cases hops : o.operands with
    | nil =>
      simp only [ops, hops, spacedText_nil, List.nil_append] at at_ops
      rw [skipTrivia_at at_ops (by decide), at_ops]
      exact forall_head?_cons (by decide)
    | cons y ys =>
      obtain ⟨d, ds, ey, opens⟩ := (ho.writable y (by simp [hops])).text_head
      have at_gap : s.toList.drop (i + o.headText.toList.length + o.op.toList.length) =
          [' '] ++ (d :: ds ++ (spacedText (fun _ => [' ']) (fun x : Operand => x.text.toList)
            (fun _ => []) ys ++ ';' :: rest)) := by
        simp [at_ops, ops, hops, ey]
      rw [skipTrivia_gap at_gap (by simp [isBlank]) (forall_head?_cons (opensPart_iff.mp opens).1),
        drop_add_of_drop_eq at_gap]
      have := opensPart_iff.mp opens
      exact forall_head?_cons ⟨this.2.1, this.2.2⟩
  obtain ⟨e, headRead, headEnd⟩ := parses_head ho
    (show o.headText.toList.length ≤ fuel by simp at enough; omega) at_head afterOp
    (fun hd => by simpa [Operation.headText, hd] using next)
  have headSkip := parses_skip (s := s) (i := e)
  rw [headEnd] at headSkip
  obtain ⟨e', opsRead, opsEnd⟩ := parses_operands ho at_ops
  have opsSkip := parses_skip (s := s) (i := e')
  rw [opsEnd] at opsSkip
  have total : i + (o.headText.toList ++ o.op.toList ++ ops ++ [';']).length =
      i + o.headText.toList.length + o.op.toList.length + ops.length + ";".toList.length := by
    simp only [List.length_append]
    simp
    omega
  rw [total]
  exact Parses.rule (parses_position.bind (headRead.bind (headSkip.bind
    ((parses_opcode at_op ho.op afterOp).bind (parses_skip.bind (opsRead.bind (opsSkip.bind
      ((parses_text at_semi).bind parses_pure))))))))

theorem yields_instruction (fuel : Nat) : Yields (instruction fuel) s InstrSyntax.Wellformed := by
  refine Yields.rule (Yields.bind_right fun _ => ?_)
  refine Yields.bind (P := fun head => ∀ d ∈ head, isIdent d.1 ∧ ∀ t ∈ d.2, t.Textual)
    (Yields.optional ?_) fun head hhead => ?_
  · exact yields_dest.bind fun d hd => .bind_right fun _ =>
      (Yields.optional (Yields.bind_right fun _ => .bind_right fun _ => yields_ty fuel)).bind
        fun t ht => .bind_right fun _ => .bind_right fun _ => yields_pure ⟨hd, ht⟩
  · exact Yields.bind_right fun _ => yields_opcode.bind fun _ hop => .bind_right fun _ =>
      (Yields.repeated yields_operand).bind fun _ hops => .bind_right fun _ => .bind_right fun _ =>
        yields_pure ⟨hhead, hop, hops⟩

end Instructions

section Functions

variable {fuel : Nat} {rest : List Char}

theorem parses_labelDef {l : String} (hl : isName l) (h : s.toList.drop i = ("." ++ l ++ ":").toList ++ rest) :
    Parses labelDef s i l (i + ("." ++ l ++ ":").toList.length) := by
  have at_mark : s.toList.drop i = ".".toList ++ l.toList ++ (":".toList ++ rest) := by simpa using h
  have at_colon : s.toList.drop (i + ".".toList.length + l.toList.length) = ":".toList ++ rest := by
    rw [Nat.add_assoc, ← List.length_append]
    exact drop_add_of_drop_eq (by simpa using at_mark)
  have read := parses_marked (R := .labelRef) at_mark hl (forall_head?_cons (by decide))
  have past : i + ("." ++ l ++ ":").toList.length = i + ".".toList.length + l.toList.length + ":".toList.length := by
    simp
    omega
  rw [past]
  exact Parses.rule (read.bind ((parses_skip_stop (by rw [at_colon]; exact forall_head?_cons (by decide))).bind
    ((parses_text at_colon).bind parses_pure)))

theorem fails_labelDef (h : ∀ x ∈ (s.toList.drop i).head?, x ≠ '.') : Fails labelDef s i :=
  (fails_marked (m := ".") (not_prefix_of_ne h)).bind.rule

theorem fails_instruction (h : ∀ x ∈ (s.toList.drop i).head?, (x.isAlpha || x == '_') = false ∧ isTrivia x = false) :
    Fails (instruction fuel) s i := by
  have noHead := Fails.optional ((fails_dest (fun x hx => (h x hx).1)).bind (f := fun d => skip >>= fun _ =>
    optional (text ":" >>= fun _ => skip >>= fun _ => ty fuel) >>= fun t => skip >>= fun _ =>
      text "=" >>= fun _ => pure (d, t)))
  have noOp := fails_opcode (s := s) (i := i) fun x hx => by
    have := (h x hx).1
    simp only [Bool.or_eq_false_iff] at this
    exact this.1
  exact Fails.rule (parses_position.bind_fails (noHead.bind_fails
    ((parses_skip_stop fun x hx => (h x hx).2).bind_fails noOp.bind)))

theorem parses_item {ins : Instr} (hins : ins.Textual) (enough : ins.text.toList.length ≤ fuel)
    (h : s.toList.drop i = ins.text.toList ++ rest) :
    Parses (orElse (ItemSyntax.label <$> labelDef) (ItemSyntax.instr <$> instruction fuel)) s i
      (ins.syntaxAt i) (i + ins.text.toList.length) := by
  cases ins with
  | label l => exact (parses_labelDef hins h).map.orElse_left
  | op o =>
    obtain ⟨c, hc, first⟩ := Operation.Textual.text_head hins
    have notLabel : ∀ x ∈ (s.toList.drop i).head?, x ≠ '.' := by
      have at_head : (s.toList.drop i).head? = some c := by
        rw [h, List.head?_append]
        exact congrArg (·.or rest.head?) hc
      rw [at_head]
      rintro x ⟨⟩ rfl
      cases first
    exact Parses.orElse_right (fails_labelDef notLabel).map (parses_instruction hins enough h).map

theorem fails_item (h : s.toList.drop i = '\x7d' :: rest) :
    Fails (orElse (ItemSyntax.label <$> labelDef) (ItemSyntax.instr <$> instruction fuel)) s i :=
  (fails_labelDef (by rw [h]; exact forall_head?_cons (by decide))).map.orElse
    (fails_instruction (by rw [h]; exact forall_head?_cons (by decide))).map

theorem parses_arg {a : Argument} (ha : isIdent a.name ∧ a.ty.Textual) (enough : s.size ≤ fuel)
    {x : Char} (h : s.toList.drop i = a.text.toList ++ x :: rest) (hx : x = ',' ∨ x = ')') :
    Parses (arg fuel) s i (a.name, a.ty) (i + a.text.toList.length) := by
  obtain ⟨c, cs, et, alpha⟩ := ha.2.render_head
  have at_name : s.toList.drop i = a.name.toList ++ (":".toList ++ ([' '] ++ (a.ty.render.toList ++ x :: rest))) := by
    simpa [Argument.text] using h
  have at_colon := drop_add_of_drop_eq at_name
  have at_gap := drop_add_of_drop_eq at_colon
  have at_ty := drop_add_of_drop_eq at_gap
  have stop : (x.isAlphanum || x == '_') = false ∧ isTrivia x = false ∧ x ≠ '<' := by
    rcases hx with rfl | rfl <;> decide
  have tyRead := parses_ty_exact ha.2 ((length_le_of_drop_eq at_ty).trans enough) at_ty stop
  have past : i + a.text.toList.length =
      i + a.name.toList.length + ":".toList.length + [' '].length + a.ty.render.toList.length := by
    simp [Argument.text]
    omega
  rw [past]
  exact Parses.rule ((parses_ident at_name ha.1 (forall_head?_cons (by decide))).bind
    ((parses_skip_stop (by rw [at_colon]; exact forall_head?_cons (by decide))).bind
      ((parses_text at_colon).bind ((parses_skip_gap at_gap (by simp [isBlank])
        (by rw [et]; exact forall_head?_cons (isTrivia_of_isAlpha alpha))).bind
          (tyRead.bind parses_pure)))))

def argsTail (as : List Argument) : List Char :=
  spacedText (fun _ => []) (fun b : Argument => (", " ++ b.text).toList) (fun _ => []) as

theorem argsText_cons (a : Argument) (as : List Argument) :
    (argsText (a :: as)).toList = '(' :: (a.text.toList ++ argsTail as ++ [')']) := by
  simp [argsText, argsTail, spacedText, String.toList_join, List.flatMap_map]

theorem argsTail_head (as : List Argument) (rest : List Char) :
    ∃ x r', argsTail as ++ ')' :: rest = x :: r' ∧ (x = ',' ∨ x = ')') := by
  cases as with
  | nil => exact ⟨')', rest, rfl, .inr rfl⟩
  | cons b bs => exact ⟨',', ' ' :: (b.text.toList ++ argsTail bs ++ ')' :: rest), by simp [argsTail], .inl rfl⟩

theorem argsTail_spaced {as : List Argument} (hargs : ∀ b ∈ as, isIdent b.name ∧ b.ty.Textual)
    (enough : s.size ≤ fuel) :
    Spaced (text "," >>= fun _ => skip >>= fun _ => arg fuel) (fun b v => v = (b.name, b.ty)) s
      (fun _ => []) (fun b : Argument => (", " ++ b.text).toList) (fun _ => []) as (')' :: rest) where
  blank := by simp
  start b _ := ⟨',', ' ' :: b.text.toList, by simp, by decide⟩
  reads b hb k r h next := by
    obtain ⟨x, r', hr, hx⟩ : ∃ x r', r = x :: r' ∧ (x = ',' ∨ x = ')') := by
      rcases next with rfl | ⟨y, _, r', rfl⟩
      · exact ⟨')', rest, rfl, .inr rfl⟩
      · exact ⟨',', ' ' :: (y.text.toList ++ r'), by simp, .inl rfl⟩
    obtain ⟨c, cs, en, first⟩ := isWord_head (hargs b hb).1
    have at_comma : s.toList.drop k = ",".toList ++ ([' '] ++ (b.text.toList ++ x :: r')) := by
      simpa [hr] using h
    have at_gap := drop_add_of_drop_eq at_comma
    have at_arg := drop_add_of_drop_eq at_gap
    have past : k + (", " ++ b.text).toList.length = k + ",".toList.length + [' '].length + b.text.toList.length := by
      simp
      omega
    refine ⟨_, rfl, ?_⟩
    rw [past]
    exact (parses_text at_comma).bind ((parses_skip_gap at_gap (by simp [isBlank])
      (by simp [Argument.text, en, isTrivia_of_identHead first])).bind (parses_arg (hargs b hb) enough at_arg hx))

theorem parses_argList {a : Argument} {as : List Argument}
    (hargs : ∀ b ∈ a :: as, isIdent b.name ∧ b.ty.Textual) (enough : s.size ≤ fuel)
    (h : s.toList.drop i = (argsText (a :: as)).toList ++ rest) :
    Parses (argList fuel) s i ((a :: as).map fun b => (b.name, b.ty)) (i + (argsText (a :: as)).toList.length) := by
  rw [argsText_cons] at h ⊢
  obtain ⟨c, cs, en, first⟩ := isWord_head (hargs a List.mem_cons_self).1
  obtain ⟨x, r', hr, hx⟩ := argsTail_head as rest
  have at_open : s.toList.drop i = "(".toList ++ (a.text.toList ++ (argsTail as ++ ')' :: rest)) := by
    simpa using h
  have at_arg := drop_add_of_drop_eq at_open
  have at_tail := drop_add_of_drop_eq at_arg
  have at_close := drop_add_of_drop_eq at_tail
  set k := i + "(".toList.length + a.text.toList.length
  have at_next : s.toList.drop k = x :: r' := by rw [at_tail, hr]
  have punct : isTrivia x = false := by rcases hx with rfl | rfl <;> decide
  have closeStop := skipTrivia_at at_close (by decide)
  obtain ⟨vs, e, related, tailRead, tailEnd⟩ := (argsTail_spaced (fun b hb => hargs b (List.mem_cons_of_mem a hb))
    enough).parses at_tail (by
      show Fails _ s (skipTrivia s (k + (argsTail as).length) false)
      rw [closeStop]
      exact (fails_text (t := ",") (not_prefix_of_head at_close (by decide))).bind)
  have hvs : vs = as.map fun b => (b.name, b.ty) := by
    have same := (List.forall₂_map_left_iff (R := (· = ·)) (f := fun b : Argument => (b.name, b.ty))).mpr
      (related.imp fun _ _ e => e.symm)
    rw [List.forall₂_eq_eq_eq] at same
    exact same.symm
  have argRead := parses_arg (hargs a List.mem_cons_self) enough (by rw [at_arg, hr]) hx
  rw [skipTrivia_at at_next punct] at tailRead
  have closeSkip := parses_skip (s := s) (i := e)
  rw [tailEnd, show spacedText _ _ _ as = argsTail as from rfl, closeStop] at closeSkip
  have openSkip : Parses skip s (i + "(".toList.length) () (i + "(".toList.length) :=
    parses_skip_stop (by rw [at_arg]; simp [Argument.text, en, isTrivia_of_identHead first])
  have past : i + ('(' :: (a.text.toList ++ argsTail as ++ [')'])).length =
      k + (argsTail as).length + ")".toList.length := by
    simp [k]
    omega
  subst hvs
  rw [past]
  exact Parses.rule ((parses_text at_open).bind (openSkip.bind
    ((argRead.bind ((parses_skip_at at_next punct).bind
        (tailRead.bind (f := fun vs => pure ((a.name, a.ty) :: vs)) parses_pure))).optional.bind
        (closeSkip.bind ((parses_text at_close).bind parses_pure)))))

theorem parses_args {args : List Argument} (hargs : ∀ b ∈ args, isIdent b.name ∧ b.ty.Textual)
    (enough : s.size ≤ fuel) (h : s.toList.drop i = (argsText args).toList ++ rest)
    (next : ∀ x ∈ (s.toList.drop (skipTrivia s (i + (argsText args).toList.length) false)).head?, x ≠ '(') :
    ∃ v j, v.getD [] = args.map (fun b => (b.name, b.ty)) ∧
      Parses (optional (argList fuel)) s (skipTrivia s i false) v j ∧
      skipTrivia s j false = skipTrivia s (i + (argsText args).toList.length) false := by
  cases args with
  | nil =>
    refine ⟨none, _, rfl, Fails.optional ?_, by simp [argsText, skipTrivia_idem]⟩
    exact (fails_text (t := "(") (not_prefix_of_ne (m := '(') (by simpa [argsText] using next))).bind.rule
  | cons a as =>
    rw [skipTrivia_stop (by rw [h, argsText_cons, List.cons_append]; exact forall_head?_cons (by decide))]
    exact ⟨_, _, rfl, (parses_argList hargs enough h).optional, rfl⟩

theorem parses_ret {ret : Option Ty} (hret : ∀ t ∈ ret, t.Textual) (enough : s.size ≤ fuel)
    (h : s.toList.drop i = (retText ret).toList ++ rest)
    (noName : ∀ x ∈ rest.head?, (x.isAlphanum || x == '_') = false)
    (next : ∀ x ∈ (s.toList.drop (skipTrivia s (i + (retText ret).toList.length) false)).head?,
      x ≠ ':' ∧ x ≠ '<') :
    ∃ j, Parses (optional (text ":" >>= fun _ => skip >>= fun _ => ty fuel)) s (skipTrivia s i false) ret j ∧
      skipTrivia s j false = skipTrivia s (i + (retText ret).toList.length) false := by
  cases ret with
  | none =>
    refine ⟨_, Fails.optional ?_, by simp [retText, skipTrivia_idem]⟩
    exact (fails_text (t := ":") (not_prefix_of_ne (m := ':')
      fun x hx => (next x (by simpa [retText] using hx)).1)).bind
  | some t =>
    have ht := hret t rfl
    obtain ⟨c, cs, et, alpha⟩ := ht.render_head
    have at_colon : s.toList.drop i = ":".toList ++ ([' '] ++ (t.render.toList ++ rest)) := by
      simpa [retText] using h
    have at_gap := drop_add_of_drop_eq at_colon
    have at_ty := drop_add_of_drop_eq at_gap
    have past : i + (retText (some t)).toList.length =
        i + ":".toList.length + [' '].length + t.render.toList.length := by
      simp [retText]
      omega
    rw [past] at next ⊢
    obtain ⟨j, tyRead, -, tyEnd⟩ := parses_ty ht ((length_le_of_drop_eq at_ty).trans enough) at_ty noName
      fun x hx => (next x hx).2
    rw [skipTrivia_stop (by rw [at_colon]; exact forall_head?_cons (by decide))]
    exact ⟨j, ((parses_text at_colon).bind ((parses_skip_gap at_gap (by simp [isBlank])
      (by rw [et]; exact forall_head?_cons (isTrivia_of_isAlpha alpha))).bind tyRead)).optional, tyEnd⟩

theorem instrs_spaced {instrs : List Instr} (hins : ∀ ins ∈ instrs, ins.Textual) (enough : s.size ≤ fuel) :
    Spaced (orElse (ItemSyntax.label <$> labelDef) (ItemSyntax.instr <$> instruction fuel))
      (fun ins item => ∃ start, item = ins.syntaxAt start) s (fun ins => ins.indent.toList)
      (fun ins => ins.text.toList) (fun _ => ['\n']) instrs ('\x7d' :: rest) where
  blank ins _ := by cases ins <;> simp [Instr.indent, isBlank]
  start ins hin := (hins ins hin).text_start
  reads ins hin k r h _ := by
    have at_item : s.toList.drop k = ins.text.toList ++ ('\n' :: r) := by simpa using h
    exact ⟨_, ⟨k, rfl⟩, parses_item (hins ins hin) ((length_le_of_drop_eq at_item).trans enough) at_item⟩

theorem parses_body {instrs : List Instr} (hins : ∀ ins ∈ instrs, ins.Textual) (enough : s.size ≤ fuel)
    (h : s.toList.drop k = bodyText instrs ++ '\x7d' :: rest) :
    ∃ items e, List.Forall₂ (fun ins item => ∃ start, item = ins.syntaxAt start) instrs items ∧
      Parses (repeated (orElse (ItemSyntax.label <$> labelDef) (ItemSyntax.instr <$> instruction fuel)))
        s (skipTrivia s k false) items e ∧
      skipTrivia s e false = k + (bodyText instrs).length := by
  have at_close := drop_add_of_drop_eq h
  have stopped := skipTrivia_stop (s := s) (i := k + (bodyText instrs).length)
    (by rw [at_close]; exact forall_head?_cons (by decide))
  obtain ⟨items, e, rel, read, ends⟩ := (instrs_spaced hins enough).parses h
    (by rw [show spacedText _ _ _ instrs = bodyText instrs from rfl, stopped]; exact fails_item at_close)
  exact ⟨items, e, rel, read, ends.trans stopped⟩

theorem retText_next {ret : Option Ty} (h : s.toList.drop i = (retText ret).toList ++ " \x7b".toList ++ rest) :
    ∀ x ∈ (s.toList.drop (skipTrivia s i false)).head?, x = ':' ∨ x = '\x7b' := by
  cases ret with
  | none =>
    have at_gap : s.toList.drop i = [' '] ++ ('\x7b' :: rest) := by simpa [retText] using h
    rw [skipTrivia_gap at_gap (by simp [isBlank]) (forall_head?_cons (by decide)), drop_add_of_drop_eq at_gap]
    exact forall_head?_cons (.inr rfl)
  | some t =>
    have at_colon : s.toList.drop i = ':' :: (' ' :: (t.render.toList ++ " \x7b".toList ++ rest)) := by
      simpa [retText] using h
    rw [skipTrivia_at at_colon (by decide), at_colon]
    exact forall_head?_cons (.inl rfl)

/-- A function is read from its text, as a syntax it is written as. -/
theorem parses_function {f : Function} (hf : f.Textual) (enough : s.size ≤ fuel)
    (h : s.toList.drop i = f.text.toList ++ rest) :
    ∃ fs, f.WrittenAs fs ∧ Parses (function fuel) s i fs (i + f.text.toList.length) := by
  rw [Function.text_toList] at h ⊢
  have at_mark : s.toList.drop i = "@".toList ++ f.name.toList ++ ((argsText f.args).toList ++
      ((retText f.ret).toList ++ (" \x7b".toList ++ '\n' :: (bodyText f.instrs ++ '\x7d' :: rest)))) := by
    simpa using h
  have at_args : s.toList.drop (i + "@".toList.length + f.name.toList.length) = (argsText f.args).toList ++
      ((retText f.ret).toList ++ (" \x7b".toList ++ '\n' :: (bodyText f.instrs ++ '\x7d' :: rest))) := by
    have := drop_add_of_drop_eq at_mark
    rwa [List.length_append, ← Nat.add_assoc] at this
  have at_ret := drop_add_of_drop_eq at_args
  have at_brace := drop_add_of_drop_eq at_ret
  set p3 := i + "@".toList.length + f.name.toList.length + (argsText f.args).toList.length +
    (retText f.ret).toList.length
  -- the blank before the brace, the brace and the line break after it
  have at_gap : s.toList.drop p3 = [' '] ++ ('\x7b' :: '\n' :: (bodyText f.instrs ++ '\x7d' :: rest)) := by
    simpa using at_brace
  have braceSkip := skipTrivia_gap at_gap (by simp [isBlank]) (forall_head?_cons (by decide))
  have at_open : s.toList.drop (p3 + [' '].length) = "\x7b".toList ++ (['\n'] ++ (bodyText f.instrs ++ '\x7d' :: rest)) := by
    simpa using drop_add_of_drop_eq at_gap
  have at_line := drop_add_of_drop_eq at_open
  have lineSkip := skipTrivia_blanks at_line (by simp)
  have at_body := drop_add_of_drop_eq at_line
  have at_close := drop_add_of_drop_eq at_body
  have afterName : ∀ x ∈ ((argsText f.args).toList ++ ((retText f.ret).toList ++
      (" \x7b".toList ++ '\n' :: (bodyText f.instrs ++ '\x7d' :: rest)))).head?, isNameChar x = false := by
    cases f.args with
    | cons a as => rw [argsText_cons, List.cons_append]; exact forall_head?_cons (by decide)
    | nil => cases f.ret <;> simp [argsText, retText] <;> decide
  -- the argument list and the return type are read where written and passed over where not,
  -- since the part that follows starts with neither `(` nor `:`
  have retNext := retText_next (by simpa using at_ret)
  obtain ⟨v, j1, hv, argsRead, argsEnd⟩ := parses_args hf.args enough at_args
    fun x hx => by rcases retNext x hx with rfl | rfl <;> decide
  obtain ⟨j2, retRead, retEnd⟩ := parses_ret hf.ret enough at_ret (forall_head?_cons (by decide))
    (by rw [braceSkip, drop_add_of_drop_eq at_gap]; exact forall_head?_cons (by decide))
  obtain ⟨items, e, rel, bodyRead, bodyEnd⟩ := parses_body hf.instrs enough at_body
  refine ⟨{ name := f.name, args := v.getD [], ret := f.ret, items }, ⟨rfl, hv, rfl, rel⟩, ?_⟩
  have argsSkip := parses_skip (s := s) (i := j1)
  rw [argsEnd] at argsSkip
  have retSkip := parses_skip (s := s) (i := j2)
  rw [retEnd, braceSkip] at retSkip
  have lineSkip' := parses_skip (s := s) (i := p3 + [' '].length + "\x7b".toList.length)
  rw [lineSkip] at lineSkip'
  have bodySkip := parses_skip (s := s) (i := e)
  rw [bodyEnd] at bodySkip
  have total : i + ("@".toList ++ f.name.toList ++ ((argsText f.args).toList ++ ((retText f.ret).toList ++
      (" \x7b".toList ++ '\n' :: (bodyText f.instrs ++ ['\x7d']))))).length =
      p3 + [' '].length + "\x7b".toList.length + ['\n'].length + (bodyText f.instrs).length + "\x7d".toList.length := by
    simp [p3]
    omega
  rw [total]
  exact Parses.rule ((parses_marked (R := .funcRef) at_mark hf.name afterName).bind (parses_skip.bind
    (argsRead.bind (argsSkip.bind (retRead.bind (retSkip.bind ((parses_text at_open).bind (lineSkip'.bind
      (bodyRead.bind (bodySkip.bind ((parses_text (t := "\x7d") at_close).bind parses_pure)))))))))))

theorem yields_labelDef : Yields labelDef s fun l => isName l :=
  Yields.rule (yields_marked.bind fun _ hl => .bind_right fun _ => .bind_right fun _ => yields_pure hl)

theorem yields_item (fuel : Nat) :
    Yields (orElse (ItemSyntax.label <$> labelDef) (ItemSyntax.instr <$> instruction fuel)) s
      ItemSyntax.Wellformed :=
  Yields.orElse (yields_labelDef.map fun _ h => h) ((yields_instruction fuel).map fun _ h => h)

theorem yields_arg (fuel : Nat) : Yields (arg fuel) s fun a => isIdent a.1 ∧ a.2.Textual :=
  Yields.rule (yields_ident.bind fun _ hn => .bind_right fun _ => .bind_right fun _ => .bind_right fun _ =>
    (yields_ty fuel).bind fun _ ht => yields_pure ⟨hn, ht⟩)

theorem yields_argList (fuel : Nat) :
    Yields (argList fuel) s fun as => ∀ a ∈ as, isIdent a.1 ∧ a.2.Textual := by
  refine Yields.rule (Yields.bind_right fun _ => .bind_right fun _ => ?_)
  refine Yields.bind (P := fun v => ∀ as ∈ v, ∀ a ∈ as, isIdent a.1 ∧ a.2.Textual) (Yields.optional ?_)
    fun v hv => .bind_right fun _ => .bind_right fun _ => yields_pure ?_
  · refine (yields_arg fuel).bind fun a ha => .bind_right fun _ => ?_
    refine (Yields.repeated (Yields.bind_right fun _ => .bind_right fun _ => yields_arg fuel)).bind
      fun as has => yields_pure ?_
    intro b hb
    rcases List.mem_cons.mp hb with rfl | hb
    · exact ha
    · exact has b hb
  · cases v with
    | none => simp
    | some as => exact hv as rfl

theorem yields_function (fuel : Nat) : Yields (function fuel) s FunctionSyntax.Wellformed := by
  refine Yields.rule (yields_marked.bind fun name hname => .bind_right fun _ => ?_)
  refine (Yields.optional (yields_argList fuel)).bind fun args hargs => .bind_right fun _ => ?_
  refine (Yields.optional (Yields.bind_right fun _ => .bind_right fun _ => yields_ty fuel)).bind
    fun ret hret => .bind_right fun _ => .bind_right fun _ => .bind_right fun _ => ?_
  refine (Yields.repeated (yields_item fuel)).bind fun items hitems =>
    .bind_right fun _ => .bind_right fun _ => yields_pure ⟨hname, ?_, hret, hitems⟩
  cases args with
  | none => simp
  | some as => exact hargs as rfl

end Functions

section Program

variable {fuel : Nat}

theorem parses_eoi : Parses eoi s s.size () s.size :=
  Parses.rule (parses_atEnd.bind (by simpa using parses_pure))

theorem fails_function_end (h : s.toList.drop i = []) : Fails (function fuel) s i :=
  (fails_marked (R := .funcRef) (m := "@") (by rw [h]; simp)).bind.rule

theorem functions_spaced {fns : List Function} (hfns : ∀ f ∈ fns, f.Textual) (enough : s.size ≤ fuel) :
    Spaced (function fuel) Function.WrittenAs s (fun _ => []) (fun f => f.text.toList) (fun _ => ['\n'])
      fns [] where
  blank := by simp [isBlank]
  start f _ := ⟨'@', _, by rw [Function.text_toList]; rfl, by decide⟩
  reads f hf k r h _ := by
    have at_f : s.toList.drop k = f.text.toList ++ ('\n' :: r) := by simpa using h
    exact parses_function (hfns f hf) enough at_f

/-- A program is read from its whole text, as the syntax of its functions. -/
theorem parses_program {p : Program} (hp : p.Textual) (h : s.toList = p.text.toList) :
    ∃ fs, List.Forall₂ Function.WrittenAs p.functions fs ∧ Parses (program s.size) s 0 fs s.size := by
  rw [Program.text_toList] at h
  have size : (spacedText (fun _ => []) (fun f : Function => f.text.toList) (fun _ => ['\n'])
      p.functions).length = s.size := by
    rw [← h, Array.length_toList]
  have at_end : s.toList.drop s.size = [] := by simp
  have stopped : skipTrivia s s.size false = s.size := skipTrivia_stop (by rw [at_end]; simp)
  obtain ⟨fs, e, rel, read, ends⟩ := (functions_spaced hp le_rfl).parses (k := 0) (by simpa using h)
    (by rw [Nat.zero_add, size, stopped]; exact fails_function_end at_end)
  rw [Nat.zero_add, size, stopped] at ends
  have endSkip := parses_skip (s := s) (i := e)
  rw [ends] at endSkip
  exact ⟨fs, rel, Parses.rule (parses_skip.bind (read.bind (endSkip.bind (parses_eoi.bind parses_pure))))⟩

theorem yields_program (fuel : Nat) : Yields (program fuel) s fun fs => ∀ f ∈ fs, f.Wellformed :=
  Yields.rule (Yields.bind_right fun _ => (Yields.repeated (yields_function fuel)).bind
    fun _ hfs => .bind_right fun _ => .bind_right fun _ => yields_pure hfs)

end Program

end Text

end BrilFlow
