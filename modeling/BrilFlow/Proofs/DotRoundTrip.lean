import BrilFlow.Cfg.Dot

/-! Reading DOT text back. Quoting's two replace passes escape each character on its own, and a
reader that cuts quoted names and marks out of the text recovers the function's name, the block
names and the successor entries, in order, whatever the names hold. -/
namespace BrilFlow

section Quoting

open String.Slice.Pattern Model

/-- Characters with every `c` replaced by `r`. -/
def replaceChars (c : Char) (r : List Char) (cs : List Char) : List Char :=
  cs.flatMap fun x => if x = c then r else [x]

theorem copy_sliceFrom_eq_slice_append {s : String.Slice} {p q : s.Pos} (h : p ≤ q) :
    (s.sliceFrom p).copy = (s.slice p q h).copy ++ (s.sliceFrom q).copy := by
  obtain ⟨t₁, t₂, hp, hq⟩ := String.Slice.copy_slice_eq_iff_splits.mp ⟨h, rfl⟩
  rw [hp.copy_sliceFrom_eq, hq.copy_sliceFrom_eq]

theorem not_mem_copy_slice {s : String.Slice} {c : Char} (q : s.Pos) :
    ∀ (p : s.Pos) (h : p ≤ q), (∀ pos, p ≤ pos → pos < q → ¬ MatchesAt c pos) →
      c ∉ (s.slice p q h).copy.toList := by
  intro p
  induction p using WellFounded.induction String.Slice.Pos.wellFounded_gt with
  | h p ih =>
  intro h rej
  by_cases same : p = q
  · subst same
    simp
  · have lt : p < q := Std.lt_of_le_of_ne h same
    have hp : p ≠ s.endPos := String.Slice.Pos.ne_endPos_of_lt lt
    have step : p < p.next hp := String.Slice.Pos.lt_next
    rw [String.Slice.copy_slice_eq_append_of_lt lt, String.toList_append, String.toList_singleton,
      List.singleton_append, List.mem_cons, not_or]
    constructor
    · intro eq
      exact rej p (Std.le_refl p) lt (Char.matchesAt_iff.mpr ⟨hp, eq.symm⟩)
    · exact ih _ step _ fun pos after before => rej pos (Std.le_trans (Std.le_of_lt step) after) before

theorem replaceChars_append (c : Char) (r xs ys : List Char) :
    replaceChars c r (xs ++ ys) = replaceChars c r xs ++ replaceChars c r ys :=
  List.flatMap_append

theorem replaceChars_of_not_mem {c : Char} {r cs : List Char} (h : c ∉ cs) : replaceChars c r cs = cs := by
  induction cs with
  | nil => rfl
  | cons x xs ih =>
    rw [List.mem_cons, not_or] at h
    rw [replaceChars, List.flatMap_cons, if_neg (Ne.symm h.1), ← replaceChars, ih h.2]
    rfl

/-- Folding the steps of a valid search for `c`, writing `r` for each match and the text of each
rejected stretch, replaces every `c` of the rest of the slice. -/
theorem foldl_searchSteps {s : String.Slice} {c : Char} {r : String}
    {F : String → SearchStep s → String}
    (matched : ∀ acc p q, F acc (.matched p q) = (acc ++ r.toSlice : String))
    (rejected : ∀ acc p q, F acc (.rejected p q) = (acc ++ s.slice! p q : String))
    {p : s.Pos} {l : List (SearchStep s)} (valid : IsValidSearchFrom c p l) (acc : String) :
    (l.foldl F acc).toList = acc.toList ++ replaceChars c r.toList (s.sliceFrom p).copy.toList := by
  induction valid generalizing acc with
  | endPos => simp [replaceChars]
  | @matched l p q found _ ih =>
    obtain ⟨hp, rfl, get⟩ := Char.isLongestMatchAt_iff.mp found
    have split : (s.sliceFrom p).copy = String.singleton c ++ (s.sliceFrom (p.next hp)).copy := by
      rw [copy_sliceFrom_eq_slice_append (Std.le_of_lt String.Slice.Pos.lt_next),
        String.Slice.copy_slice_next, get]
    rw [List.foldl_cons, ih, matched, split]
    simp [replaceChars]
  | @mismatched l p q lt rej _ ih =>
    -- the rejected stretch holds no `c`, so it is copied as it stands
    have clean := replaceChars_of_not_mem (r := r.toList) (not_mem_copy_slice q p (Std.le_of_lt lt) rej)
    rw [String.Slice.slice_eq_slice!] at clean
    have split : (s.sliceFrom p).copy = (s.slice! p q).copy ++ (s.sliceFrom q).copy := by
      rw [copy_sliceFrom_eq_slice_append (Std.le_of_lt lt), String.Slice.slice_eq_slice!]
    rw [List.foldl_cons, ih, rejected, split, String.toList_append, replaceChars_append, clean]
    simp

theorem toList_replace_char (s : String) (c : Char) (r : String) :
    (s.replace c r).toList = replaceChars c r.toList s.toList := by
  unfold String.replace String.Slice.replace
  rw [← Std.Iter.foldl_toList, foldl_searchSteps (fun _ _ _ => rfl) (fun _ _ _ => rfl)
    (LawfulToForwardSearcherModel.isValidSearchFrom_toList s.toSlice)]
  simp

/-- A character as it stands between quotes: `\` and `"` each after a backslash. -/
def dotEscape (c : Char) : List Char :=
  if c = '\\' then ['\\', '\\'] else if c = '"' then ['\\', '"'] else [c]

/-- Doubling backslashes and then escaping quotes escapes each character on its own. -/
theorem toList_dotQuote (s : String) :
    (dotQuote s).toList = '"' :: (s.toList.flatMap dotEscape ++ ['"']) := by
  have passes : replaceChars '"' ['\\', '"'] (replaceChars '\\' ['\\', '\\'] s.toList) =
      s.toList.flatMap dotEscape := by
    rw [replaceChars, replaceChars, List.flatMap_assoc]
    congr 1
    funext c
    -- the backslashes the first pass writes are left alone by the second
    by_cases backslash : c = '\\'
    · simp [backslash, dotEscape]
    · by_cases quote : c = '"' <;> simp [backslash, quote, dotEscape]
  simp [dotQuote, toList_replace_char, passes]

end Quoting

/-- A piece of DOT text: a quoted name with its escapes undone, or a character outside quotes
that is not blank. -/
inductive DotToken where
  | name (s : String)
  | mark (c : Char)
deriving DecidableEq, Repr

namespace DotToken

/-- Where a scan of DOT text stands: outside quotes, or inside a name with its characters so far,
reversed, and whether a backslash was just read. -/
inductive Place where
  | outside
  | inside (acc : List Char) (escaped : Bool)

/-- Cuts DOT text into tokens. Outside quotes blanks are dropped. Inside, `\\` stands for a
backslash and `\"` for a quote, any other backslash for itself; a name left open fails. -/
def scan : Place → List Char → Option (List DotToken)
  | .outside, [] => some []
  | .outside, c :: rest =>
    if c = '"' then scan (.inside [] false) rest
    else if c.isWhitespace then scan .outside rest
    else (scan .outside rest).map (mark c :: ·)
  | .inside _ _, [] => none
  | .inside acc true, c :: rest =>
    if c = '\\' ∨ c = '"' then scan (.inside (c :: acc) false) rest
    else scan (.inside (c :: '\\' :: acc) false) rest
  | .inside acc false, c :: rest =>
    if c = '"' then (scan .outside rest).map (name (String.ofList acc.reverse) :: ·)
    else if c = '\\' then scan (.inside acc true) rest
    else scan (.inside (c :: acc) false) rest

def marks (t : String) : List DotToken := t.toList.map mark

end DotToken

inductive DotStatement where
  | node (name : String)
  | edge (source target : String)
deriving DecidableEq, Repr

def DotStatement.readAll : List DotToken → Option (List DotStatement)
  | [.mark '\x7d'] => some []
  | .name a :: .mark ';' :: rest => (readAll rest).map (.node a :: ·)
  | .name a :: .mark '-' :: .mark '>' :: .name b :: .mark ';' :: rest =>
    (readAll rest).map (.edge a b :: ·)
  | _ => none

/-- Reads a directed graph `digraph "name" { … }`: its name and its statements. -/
def readDigraph (text : String) : Option (String × List DotStatement) := do
  let tokens ← DotToken.scan .outside text.toList
  match tokens.take 7 == DotToken.marks "digraph", tokens.drop 7 with
  | true, .name f :: .mark '\x7b' :: rest => return (f, ← DotStatement.readAll rest)
  | _, _ => none

namespace DotToken

/-- Text `t`, read outside any name, gives the tokens `ts`, whatever follows it. -/
def Scans (t : List Char) (ts : List DotToken) : Prop :=
  ∀ rest, scan .outside (t ++ rest) = (scan .outside rest).map (ts ++ ·)

theorem Scans.append {t u : List Char} {ts us : List DotToken} (ht : Scans t ts)
    (hu : Scans u us) : Scans (t ++ u) (ts ++ us) := by
  intro rest
  rw [List.append_assoc, ht, hu, Option.map_map]
  congr 1
  funext vs
  simp

theorem scans_nil : Scans [] [] := fun rest => by simp

theorem Scans.flatMap {β : Type} {f : β → List Char} {g : β → List DotToken} :
    ∀ {xs : List β}, (∀ x ∈ xs, Scans (f x) (g x)) → Scans (xs.flatMap f) (xs.flatMap g)
  | [], _ => scans_nil
  | x :: xs, each => by
    simp only [List.flatMap_cons]
    exact (each x List.mem_cons_self).append
      (Scans.flatMap fun y hy => each y (List.mem_cons_of_mem x hy))

theorem scans_plain : ∀ {t : List Char}, '"' ∉ t →
    Scans t ((t.filter fun c => !c.isWhitespace).map mark)
  | [], _ => scans_nil
  | c :: t, noQuote => by
    intro rest
    have ne : c ≠ '"' := fun h => noQuote (h ▸ List.mem_cons_self)
    have tail := scans_plain (fun h => noQuote (List.mem_cons_of_mem c h)) rest
    by_cases blank : c.isWhitespace = true
    · simp [scan, ne, blank, tail]
    · simp [scan, ne, blank, tail, Option.map_map, Function.comp_def]

theorem scan_escaped (acc rest : List Char) :
    ∀ cs : List Char, scan (.inside acc false) (cs.flatMap dotEscape ++ '"' :: rest) =
      (scan .outside rest).map (name (String.ofList (acc.reverse ++ cs)) :: ·)
  | [] => by simp [scan]
  | c :: cs => by
    -- a backslash or a quote is read as its two-character escape, anything else as itself
    by_cases backslash : c = '\\'
    · subst backslash
      simp [scan, dotEscape, scan_escaped ('\\' :: acc) rest cs]
    · by_cases quote : c = '"'
      · subst quote
        simp [scan, dotEscape, scan_escaped ('"' :: acc) rest cs]
      · simp [scan, dotEscape, backslash, quote, scan_escaped (c :: acc) rest cs]

theorem scans_dotQuote (s : String) : Scans (dotQuote s).toList [name s] := by
  intro rest
  simp [toList_dotQuote, scan, scan_escaped]

theorem scans_blank {t : List Char} (blank : ∀ c ∈ t, c.isWhitespace = true) : Scans t [] := by
  have noQuote : '"' ∉ t := fun h => by simpa using blank '"' h
  have none : (t.filter fun c => !c.isWhitespace) = [] := by simpa using blank
  simpa [none] using scans_plain noQuote

end DotToken

namespace DotStatement

open DotToken

def nodeTokens (n : String) : List DotToken := [name n, mark ';']

def edgeTokens (a b : String) : List DotToken := [name a, mark '-', mark '>', name b, mark ';']

theorem readAll_node (n : String) (rest : List DotToken) :
    readAll (nodeTokens n ++ rest) = (readAll rest).map (node n :: ·) := by
  simp [nodeTokens, readAll]

theorem readAll_edge (a b : String) (rest : List DotToken) :
    readAll (edgeTokens a b ++ rest) = (readAll rest).map (edge a b :: ·) := by
  simp [edgeTokens, readAll]

theorem readAll_nodes (rest : List DotToken) :
    ∀ ns : List String, readAll (ns.flatMap nodeTokens ++ rest) =
      (readAll rest).map (ns.map node ++ ·)
  | [] => by simp
  | n :: ns => by
    rw [List.flatMap_cons, List.append_assoc, readAll_node, readAll_nodes rest ns, Option.map_map]
    rfl

theorem readAll_edges (rest : List DotToken) :
    ∀ es : List (String × String), readAll (es.flatMap (fun e => edgeTokens e.1 e.2) ++ rest) =
      (readAll rest).map (es.map (fun e => edge e.1 e.2) ++ ·)
  | [] => by simp
  | e :: es => by
    rw [List.flatMap_cons, List.append_assoc, readAll_edge, readAll_edges rest es, Option.map_map]
    rfl

theorem readAll_body (ns : List String) (es : List (String × String)) :
    readAll (ns.flatMap nodeTokens ++ es.flatMap (fun e => edgeTokens e.1 e.2) ++ [mark '\x7d']) =
      some (ns.map node ++ es.map fun e => edge e.1 e.2) := by
  rw [List.append_assoc, readAll_nodes, readAll_edges]
  simp [readAll]

end DotStatement

open DotToken DotStatement

/-- The tokens of a graph's text: the keyword, the name and the opening brace, the node
statements, the edge statements and the closing brace. -/
theorem scans_toDot (g : Cfg) (function indent : String)
    (blank : ∀ c ∈ indent.toList, c.isWhitespace = true) :
    Scans (g.toDot function indent).toList
      (marks "digraph" ++ [name function, mark '\x7b'] ++ g.names.flatMap nodeTokens ++
        (g.edges.map fun e => (g.name e.1, g.name e.2)).flatMap (fun e => edgeTokens e.1 e.2) ++
        [mark '\x7d']) := by
  have keyword : Scans "digraph ".toList (marks "digraph") := scans_plain (by decide)
  have opening : Scans " \x7b\n".toList [mark '\x7b'] := scans_plain (by decide)
  have closing : Scans "\x7d\n".toList [mark '\x7d'] := scans_plain (by decide)
  have ending : Scans ";\n".toList [mark ';'] := scans_plain (by decide)
  have arrow : Scans " -> ".toList [mark '-', mark '>'] := scans_plain (by decide)
  have nodes : Scans (String.join (g.names.map fun n => indent ++ dotQuote n ++ ";\n")).toList
      (g.names.flatMap nodeTokens) := by
    rw [String.toList_join, List.flatMap_map]
    refine Scans.flatMap fun n _ => ?_
    simpa [String.toList_append, nodeTokens] using
      ((scans_blank blank).append (scans_dotQuote n)).append ending
  have edges : Scans (String.join (g.edges.map fun e =>
        indent ++ dotQuote (g.name e.1) ++ " -> " ++ dotQuote (g.name e.2) ++ ";\n")).toList
      ((g.edges.map fun e => (g.name e.1, g.name e.2)).flatMap (fun e => edgeTokens e.1 e.2)) := by
    rw [String.toList_join, List.flatMap_map, List.flatMap_map]
    refine Scans.flatMap fun e _ => ?_
    simpa [String.toList_append, edgeTokens] using
      ((((scans_blank blank).append (scans_dotQuote (g.name e.1))).append arrow).append
        (scans_dotQuote (g.name e.2))).append ending
  simpa [Cfg.toDot, String.toList_append, List.append_assoc] using
    ((((keyword.append (scans_dotQuote function)).append opening).append nodes).append
      edges).append closing

/-- The text written for a graph reads back: the function's name from the header, the block
names in order from the node statements, and the successor entries in order from the edge
statements, whatever characters the names hold. In particular quoting is injective. -/
theorem toDot_reads_back (g : Cfg) (function indent : String)
    (blank : ∀ c ∈ indent.toList, c.isWhitespace = true) :
    readDigraph (g.toDot function indent) =
        some (function, g.names.map node ++ g.edges.map fun e => edge (g.name e.1) (g.name e.2)) ∧
      Function.Injective dotQuote := by
  constructor
  · have scanned := scans_toDot g function indent blank []
    rw [List.append_nil, show scan .outside [] = some [] from rfl, Option.map_some,
      List.append_nil] at scanned
    have body := readAll_body g.names (g.edges.map fun e => (g.name e.1, g.name e.2))
    simp only [List.map_map, Function.comp_def, List.append_assoc] at body
    simp [readDigraph, scanned, marks, List.append_assoc, body]
  · intro a b same
    have read := scans_dotQuote a []
    rw [same, scans_dotQuote b []] at read
    simpa [scan] using read.symm

/-- Two blocks whose names hold quotes, a backslash, an arrow, a semicolon and a newline; the
first falls through to the second. -/
def awkwardGraph : Cfg :=
  { blocks := #[{ name := "say \"hi\"", block := {} },
      { name := "a\\b -> c;\nd", block := { ops := [.ret] } }]
    succs := #[[1], []]
    preds := #[[], [0]] }

theorem toDot_reads_back_awkward :
    (∀ c ∈ "  ".toList, c.isWhitespace = true) ∧
      readDigraph (awkwardGraph.toDot "main" "  ") =
        some ("main", [node "say \"hi\"", node "a\\b -> c;\nd",
          edge "say \"hi\"" "a\\b -> c;\nd"]) ∧
      Function.Injective dotQuote := by
  have blank : ∀ c ∈ "  ".toList, c.isWhitespace = true := by simp
  have read := toDot_reads_back awkwardGraph "main" "  " blank
  have listed : awkwardGraph.names.map node ++ awkwardGraph.edges.map
      (fun e => edge (awkwardGraph.name e.1) (awkwardGraph.name e.2)) =
      [node "say \"hi\"", node "a\\b -> c;\nd", edge "say \"hi\"" "a\\b -> c;\nd"] := rfl
  exact ⟨blank, listed ▸ read.1, read.2⟩

end BrilFlow
