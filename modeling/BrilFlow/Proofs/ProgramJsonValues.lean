import BrilFlow.Proofs.JsonNumberWindow
import BrilFlow.Program.Json

/-! Programs as JSON values read back by shape: a value comes back as itself when nothing earlier in
the order of alternatives claims it and its type entries are already sorted. -/
namespace BrilFlow

open BrilFlow.Json

/-- Types whose entries are sorted by name with each name once, at every level: the types reading
gives. -/
inductive Ty.Sorted : Ty → Prop
  | primitive (name : String) : Ty.Sorted (.primitive name)
  | parameterized {params : List (String × Ty)} : params.Pairwise (fun a b => a.1 < b.1) →
      (∀ e ∈ params, Ty.Sorted e.2) → Ty.Sorted (.parameterized params)

mutual

/-- How deep a type nests: a primitive not at all, a parameterized type one level below its
deepest entry. -/
def Ty.nesting : Ty → Nat
  | .primitive _ => 0
  | .parameterized params => Ty.paramsNesting params + 1

def Ty.paramsNesting : List (String × Ty) → Nat
  | [] => 0
  | (_, t) :: rest => max t.nesting (Ty.paramsNesting rest)

end

/-- Types JSON text carries back inside an operation or an argument, read within 122 more open
containers. -/
def Ty.JsonReadable (t : Ty) : Prop := t.Sorted ∧ t.nesting ≤ 122

/-- Literals JSON carries back: integers of 64 bits, and floats whose text reads back. -/
def Literal.JsonReadable : Literal → Prop
  | .bool _ => True
  | .int n => Literal.intMin ≤ n ∧ n ≤ Literal.intMax
  | .float bits => FloatReadsBack bits
  | .char _ => True

structure Operation.JsonReadable (o : Operation) : Prop where
  ty : ∀ t ∈ o.ty, t.JsonReadable
  value : ∀ l ∈ o.value, l.JsonReadable

def Instr.JsonReadable : Instr → Prop
  | .label _ => True
  | .op o => o.JsonReadable

/-- Functions JSON carries back; the return type stands two containers further out than the
types of operations and arguments, so it may nest two levels deeper. -/
structure Function.JsonReadable (f : Function) : Prop where
  args : ∀ a ∈ f.args, a.ty.JsonReadable
  ret : ∀ t ∈ f.ret, t.Sorted ∧ t.nesting ≤ 124
  instrs : ∀ i ∈ f.instrs, i.JsonReadable

def Program.JsonReadable (p : Program) : Prop := ∀ f ∈ p.functions, f.JsonReadable

section Types

theorem Ty.nesting_le_paramsNesting : ∀ {params : List (String × Ty)} {e : String × Ty},
    e ∈ params → e.2.nesting ≤ Ty.paramsNesting params
  | (_, t) :: rest, e, h => by
    rw [Ty.paramsNesting]
    rcases List.mem_cons.mp h with rfl | h
    · exact Nat.le_max_left _ _
    · exact Nat.le_trans (Ty.nesting_le_paramsNesting h) (Nat.le_max_right _ _)

theorem Ty.insertSorted_of_lt {name : String} {t : Ty} : ∀ {acc : List (String × Ty)},
    (∀ e ∈ acc, e.1 < name) → Ty.insertSorted name t acc = acc ++ [(name, t)]
  | [], _ => rfl
  | (k, u) :: rest, h => by
    have lt : k < name := h (k, u) List.mem_cons_self
    rw [Ty.insertSorted, if_neg (String.lt_asymm lt), if_neg (String.ne_of_lt lt).symm,
      Ty.insertSorted_of_lt fun e he => h e (List.mem_cons_of_mem _ he)]
    rfl

theorem Ty.sortEntries_of_sorted {params : List (String × Ty)}
    (sorted : params.Pairwise fun a b => a.1 < b.1) : Ty.sortEntries params = params := by
  -- the fold appends each entry after the earlier ones, all named below it
  suffices ∀ (rest acc : List (String × Ty)), (rest.Pairwise fun a b => a.1 < b.1) →
      (∀ a ∈ acc, ∀ b ∈ rest, a.1 < b.1) →
      rest.foldl (fun acc e => Ty.insertSorted e.1 e.2 acc) acc = acc ++ rest by
    rw [Ty.sortEntries]
    simpa using this params [] sorted (by simp)
  intro rest
  induction rest with
  | nil => intro acc _ _; simp
  | cons e rest ih =>
    intro acc sorted below
    rw [List.pairwise_cons] at sorted
    rw [List.foldl_cons, Ty.insertSorted_of_lt fun a ha => below a ha e List.mem_cons_self,
      ih _ sorted.2]
    · simp
    · intro a ha b hb
      rcases List.mem_append.mp ha with ha | ha
      · exact below a ha b (List.mem_cons_of_mem _ hb)
      · rw [List.mem_singleton] at ha
        subst ha
        exact sorted.1 b hb

theorem Ty.paramsToJson_eq (params : List (String × Ty)) :
    Ty.paramsToJson params = params.map fun e => (e.1, e.2.toJson) := by
  induction params with
  | nil => rw [Ty.paramsToJson, List.map_nil]
  | cons e rest ih => rw [Ty.paramsToJson, ih, List.map_cons]

theorem Ty.paramsOfJson?_paramsToJson : ∀ {params : List (String × Ty)},
    (∀ e ∈ params, Ty.ofJson? e.2.toJson = some e.2) →
    Ty.paramsOfJson? (Ty.paramsToJson params) = some params
  | [], _ => by rw [Ty.paramsToJson, Ty.paramsOfJson?]
  | (k, t) :: rest, each => by
    rw [Ty.paramsToJson, Ty.paramsOfJson?, each (k, t) List.mem_cons_self,
      Ty.paramsOfJson?_paramsToJson fun e he => each e (List.mem_cons_of_mem _ he)]
    rfl

theorem Ty.Sorted.ofJson?_toJson {t : Ty} (h : t.Sorted) : Ty.ofJson? t.toJson = some t := by
  induction h with
  | primitive name => rw [Ty.toJson, Ty.ofJson?]
  | parameterized sorted _ ih =>
    rw [Ty.toJson, Ty.ofJson?, Ty.paramsOfJson?_paramsToJson ih, Option.map_some,
      Ty.sortEntries_of_sorted sorted]

theorem Ty.Sorted.readable {t : Ty} (h : t.Sorted) : ∀ {depth : Nat}, t.nesting < depth →
    Readable depth t.toJson := by
  induction h with
  | primitive name => intro depth _; exact .str name
  | parameterized _ _ ih =>
    rename_i params
    intro depth deep
    rw [Ty.nesting] at deep
    rw [Ty.toJson, Ty.paramsToJson_eq]
    refine .obj (by omega) fun m hm => ?_
    obtain ⟨e, he, rfl⟩ := List.mem_map.mp hm
    exact ih e he (Nat.lt_of_le_of_lt (Ty.nesting_le_paramsNesting he) (by omega))

theorem Ty.JsonReadable.readable {t : Ty} (h : t.JsonReadable) {depth : Nat} (deep : 122 < depth) :
    Readable depth t.toJson :=
  h.1.readable (by have := h.2; omega)

end Types

section Literals

/-- A literal that fits is read back as itself: an integer of 64 bits is no float, and a
character is a string of one character. -/
theorem Literal.ofJson?_toJson {l : Literal} (h : l.JsonReadable) : Literal.ofJson? l.toJson = some l := by
  cases l with
  | bool b => rfl
  | int n =>
    obtain ⟨low, high⟩ := h
    rw [Literal.toJson, Json.ofInt]
    split
    · next nonneg =>
      have fits : n.toNat ≤ Literal.intMax.toNat := by
        rw [show Literal.intMax = 9223372036854775807 from rfl] at high ⊢
        omega
      rw [Literal.ofJson?, if_pos fits, Int.toNat_of_nonneg nonneg]
    · rw [Literal.ofJson?]
  | float bits => rfl
  | char c =>
    rw [Literal.toJson, Literal.ofJson?, Char.toString_eq_singleton, String.toList_singleton]

theorem Literal.readable {l : Literal} (h : l.JsonReadable) (depth : Nat) :
    Readable depth l.toJson := by
  cases l with
  | bool b => exact .bool b
  | int n =>
    obtain ⟨low, high⟩ := h
    rw [Literal.toJson, Json.ofInt]
    rw [show Literal.intMax = 9223372036854775807 from rfl] at high
    rw [show Literal.intMin = -9223372036854775808 from rfl] at low
    split
    · exact .nat (by rw [show u64Max = 18446744073709551615 from rfl]; omega)
    · exact .neg (by omega) (by rw [show Int.pow 2 63 = 9223372036854775808 from rfl]; omega)
  | float bits => exact .float h.inPlace
  | char c => exact .str _

end Literals

section Operations

variable {fs : OperationFields}

theorem Json.strings?_strs (xs : List String) : Json.strings? (Json.strs xs) = some xs := by
  induction xs with
  | nil => rfl
  | cons x xs ih =>
    simp only [Json.strs, Json.strings?, List.map_cons, List.mapM_cons] at ih ⊢
    rw [ih]
    rfl

theorem Ty.toJson_ne_null (t : Ty) : t.toJson ≠ .null := by
  cases t <;> rw [Ty.toJson] <;> nofun

theorem Literal.toJson_ne_null (l : Literal) : l.toJson ≠ .null := by
  cases l <;> rw [Literal.toJson]
  case int n => rw [Json.ofInt]; split <;> nofun
  all_goals nofun

theorem Json.optional?_of_ne_null {read : Json → Option α} {j : Json} (h : j ≠ .null) :
    Json.optional? read j = (read j).map some := by
  cases j
  · exact absurd rfl h
  all_goals rfl

-- Each field's member taken, by evaluation of the match on its key.
theorem take_dest (j : Json) : fs.take ("dest", j) =
    firstSighting fs.dest (Json.optional? Json.string? j) >>= fun d => pure { fs with dest := d } :=
  rfl

theorem take_type (j : Json) : fs.take ("type", j) =
    firstSighting fs.ty (Json.optional? Ty.ofJson? j) >>= fun t => pure { fs with ty := t } :=
  rfl

theorem take_args (j : Json) : fs.take ("args", j) =
    firstSighting fs.args (Json.strings? j) >>= fun xs => pure { fs with args := xs } :=
  rfl

theorem take_labels (j : Json) : fs.take ("labels", j) =
    firstSighting fs.labels (Json.strings? j) >>= fun xs => pure { fs with labels := xs } :=
  rfl

theorem take_funcs (j : Json) : fs.take ("funcs", j) =
    firstSighting fs.funcs (Json.strings? j) >>= fun xs => pure { fs with funcs := xs } :=
  rfl

theorem take_value (j : Json) : fs.take ("value", j) =
    firstSighting fs.value (Json.optional? Literal.ofJson? j) >>= fun l => pure { fs with value := l } :=
  rfl

theorem foldlM_take_op (op : String) :
    [("op", Json.str op)].foldlM OperationFields.take {} = some { op := some op } := rfl

theorem foldlM_take_dest (h : fs.dest = none) (d : Option String) :
    (optionalMember "dest" (d.map .str)).foldlM OperationFields.take fs =
      some { fs with dest := d.map some } := by
  cases d with
  | none => cases fs; simp_all [optionalMember]
  | some d => simp [optionalMember, take_dest, firstSighting, h, Json.optional?, Json.string?]

theorem foldlM_take_type (h : fs.ty = none) {ty : Option Ty} (sorted : ∀ t ∈ ty, t.Sorted) :
    (optionalMember "type" (ty.map Ty.toJson)).foldlM OperationFields.take fs =
      some { fs with ty := ty.map some } := by
  cases ty with
  | none => cases fs; simp_all [optionalMember]
  | some t =>
    simp [optionalMember, take_type, firstSighting, h,
      Json.optional?_of_ne_null (Ty.toJson_ne_null t), (sorted t rfl).ofJson?_toJson]

theorem foldlM_take_args (h : fs.args = none) (xs : List String) :
    (listMember "args" xs).foldlM OperationFields.take fs =
      some { fs with args := if xs.isEmpty then none else some xs } := by
  cases xs with
  | nil => cases fs; simp_all [listMember]
  | cons x xs => simp [listMember, take_args, firstSighting, h, Json.strings?_strs]

theorem foldlM_take_labels (h : fs.labels = none) (xs : List String) :
    (listMember "labels" xs).foldlM OperationFields.take fs =
      some { fs with labels := if xs.isEmpty then none else some xs } := by
  cases xs with
  | nil => cases fs; simp_all [listMember]
  | cons x xs => simp [listMember, take_labels, firstSighting, h, Json.strings?_strs]

theorem foldlM_take_funcs (h : fs.funcs = none) (xs : List String) :
    (listMember "funcs" xs).foldlM OperationFields.take fs =
      some { fs with funcs := if xs.isEmpty then none else some xs } := by
  cases xs with
  | nil => cases fs; simp_all [listMember]
  | cons x xs => simp [listMember, take_funcs, firstSighting, h, Json.strings?_strs]

theorem foldlM_take_value (h : fs.value = none) {value : Option Literal}
    (fits : ∀ l ∈ value, l.JsonReadable) :
    (optionalMember "value" (value.map Literal.toJson)).foldlM OperationFields.take fs =
      some { fs with value := value.map some } := by
  cases value with
  | none => cases fs; simp_all [optionalMember]
  | some l =>
    simp [optionalMember, take_value, firstSighting, h,
      Json.optional?_of_ne_null (Literal.toJson_ne_null l), Literal.ofJson?_toJson (fits l rfl)]

theorem getD_ifEmpty {α : Type} (xs : List α) : (if xs.isEmpty then none else some xs).getD [] = xs := by
  cases xs <;> rfl

theorem getD_map_some (x : Option α) : (x.map some).getD none = x := by
  cases x <;> rfl

theorem Operation.ofJson?_toJson {o : Operation} (h : o.JsonReadable) :
    Operation.ofJson? o.toJson = some o := by
  rw [Operation.toJson, Operation.ofJson?]
  simp only [List.foldlM_append, foldlM_take_op, Option.bind_eq_bind, Option.bind_some]
  rw [foldlM_take_dest (by rfl), Option.bind_some,
    foldlM_take_type (by rfl) fun t ht => (h.ty t ht).1, Option.bind_some,
    foldlM_take_args (by rfl), Option.bind_some, foldlM_take_labels (by rfl), Option.bind_some,
    foldlM_take_funcs (by rfl), Option.bind_some, foldlM_take_value (by rfl) h.value,
    Option.bind_some]
  simp only [OperationFields.finish, getD_ifEmpty, getD_map_some, Option.pure_def, Option.bind_eq_bind,
    Option.bind_some]

theorem mem_optionalMember {k : String} {x : Option Json} {m : String × Json}
    (h : m ∈ optionalMember k x) : ∃ j, x = some j ∧ m = (k, j) := by
  cases x <;> simp_all [optionalMember]

theorem mem_listMember {k : String} {xs : List String} {m : String × Json}
    (h : m ∈ listMember k xs) : m = (k, Json.strs xs) := by
  rw [listMember] at h
  split at h <;> simp_all

theorem labelOfJson?_operation (o : Operation) : labelOfJson? o.toJson = none := by
  rw [Operation.toJson, labelOfJson?, List.filter_eq_nil_iff.mpr]
  intro m hm
  simp only [List.mem_append, List.mem_singleton] at hm
  rcases hm with (((((rfl | h) | h) | h) | h) | h) | h
  · simp
  · obtain ⟨j, -, rfl⟩ := mem_optionalMember h
    simp
  · obtain ⟨j, -, rfl⟩ := mem_optionalMember h
    simp
  iterate 3
    · rw [mem_listMember h]
      simp
  · obtain ⟨j, -, rfl⟩ := mem_optionalMember h
    simp

theorem labelOfJson?_label (name : String) : labelOfJson? (Instr.label name).toJson = some name := by
  simp [Instr.toJson, labelOfJson?]

/-- An instruction is read back from its JSON value: a label as a label, an operation as the
same operation. -/
theorem Instr.ofJson?_toJson {i : Instr} (h : i.JsonReadable) : Instr.ofJson? i.toJson = some i := by
  cases i with
  | label name => rw [Instr.ofJson?, labelOfJson?_label]
  | op o => rw [Instr.ofJson?, Instr.toJson, labelOfJson?_operation, Operation.ofJson?_toJson h]; rfl

theorem Json.strs_readable (xs : List String) {depth : Nat} (deep : 1 < depth) :
    Readable depth (Json.strs xs) := by
  refine .arr deep fun j hj => ?_
  obtain ⟨x, -, rfl⟩ := List.mem_map.mp hj
  exact .str x

theorem Operation.JsonReadable.readable {o : Operation} (h : o.JsonReadable) {depth : Nat}
    (deep : 123 < depth) : Readable depth o.toJson := by
  refine .obj (by omega) fun m hm => ?_
  simp only [List.mem_append, List.mem_singleton] at hm
  rcases hm with (((((rfl | hm) | hm) | hm) | hm) | hm) | hm
  · exact .str _
  · obtain ⟨j, hd, rfl⟩ := mem_optionalMember hm
    obtain ⟨d, -, rfl⟩ := Option.map_eq_some_iff.mp hd
    exact .str d
  · obtain ⟨j, hj, rfl⟩ := mem_optionalMember hm
    obtain ⟨t, ht, rfl⟩ := Option.map_eq_some_iff.mp hj
    exact (h.ty t ht).readable (by omega)
  iterate 3
    · rw [mem_listMember hm]
      exact Json.strs_readable _ (by omega)
  · obtain ⟨j, hj, rfl⟩ := mem_optionalMember hm
    obtain ⟨l, hl, rfl⟩ := Option.map_eq_some_iff.mp hj
    exact Literal.readable (h.value l hl) _

theorem Instr.JsonReadable.readable {i : Instr} (h : i.JsonReadable) {depth : Nat}
    (deep : 123 < depth) : Readable depth i.toJson := by
  cases i with
  | label name => exact .obj (by omega) fun m hm => by rw [List.mem_singleton.mp hm]; exact .str _
  | op o => exact Operation.JsonReadable.readable h deep

end Operations

end BrilFlow
