import BslLint.Proofs.Data.Attempts
import BslLint.Proofs.Data.Toml.Values

/-!
# The text of a document is read as its pieces

A table is written in parts: first the values that need no heading, and then, each below a heading,
the tables in it and the rows of tables. `pieces` says which pieces of a document these lines stand
for. All of them are read back, as long as neither a path nor a value is longer or deeper than a
reader admits (`Fits`), so that what is read of a document depends on its pieces alone
(`read?_document_eq`).
-/

namespace BslLint.Toml

namespace Reader

/-! ### Lines -/

/-- A line of a document is read as a piece of it. -/
structure ReadsLine (s : String) (l : Line) : Prop where
  front : ∃ c cs, s.toList = c :: cs ∧ IsFront c ∧ c ≠ '\uFEFF'
  read : ∀ rest, line? (s.toList ++ '\n' :: rest) = some (l, '\n' :: rest)

/-- Lines are read as pieces of a document, of which empty lines give none. -/
inductive ReadsLines : List String → List Line → Prop
  | nil : ReadsLines [] []
  | empty {ss : List String} {ls : List Line} (h : ReadsLines ss ls) : ReadsLines ("" :: ss) ls
  | cons {s : String} {l : Line} {ss : List String} {ls : List Line} (hs : ReadsLine s l)
    (h : ReadsLines ss ls) : ReadsLines (s :: ss) (l :: ls)

/-- The lines of two documents, one behind the other, are read one behind the other. -/
theorem ReadsLines.append {ss ss' : List String} {ls ls' : List Line} (h : ReadsLines ss ls)
    (h' : ReadsLines ss' ls') : ReadsLines (ss ++ ss') (ls ++ ls') := by
  induction h with
  | nil => exact h'
  | empty _ ih => exact .empty ih
  | cons hs _ ih => exact .cons hs ih

/-- The text of some lines. -/
def linesText (ss : List String) : List Char := ss.flatMap fun s ↦ s.toList ++ ['\n']

/-- What begins a line does not end it. -/
theorem endLine?_of_front {c : Char} (h : IsFront c) (cs : List Char) :
    endLine? (c :: cs) = none := by
  obtain ⟨hblank, hline, hreturn, hcomment, -⟩ := h
  have hskip : skipBlank (c :: cs) = c :: cs := by
    rw [skipBlank, List.dropWhile_cons, hblank]
    rfl
  rw [endLine?, hskip]
  -- Each end of a line begins with a character that `c` is not.
  split
  next heq =>
    split at heq
    next h => exact absurd (List.cons.inj h).1 hcomment
    next => exact absurd heq (List.cons_ne_nil _ _)
  next heq =>
    split at heq
    next h => exact absurd (List.cons.inj h).1 hcomment
    next => exact absurd (List.cons.inj heq).1 hline
  next heq =>
    split at heq
    next h => exact absurd (List.cons.inj h).1 hcomment
    next => exact absurd (List.cons.inj heq).1 hreturn
  next => rfl

/-- The lines of a document are read. -/
theorem ReadsLines.lines? {ss : List String} {ls : List Line} (h : ReadsLines ss ls) {fuel : ℕ}
    (hfuel : (linesText ss).length < fuel) : lines? fuel (linesText ss) = some ls := by
  induction h generalizing fuel with
  | nil =>
    obtain ⟨fuel, rfl⟩ : ∃ k, fuel = k + 1 := ⟨fuel - 1, by omega⟩
    rfl
  | @empty ss ls h ih =>
    have htext : linesText ("" :: ss) = '\n' :: linesText ss := rfl
    rw [htext, List.length_cons] at hfuel
    obtain ⟨fuel, rfl⟩ : ∃ k, fuel = k + 1 := ⟨fuel - 1, by omega⟩
    rw [htext, Reader.lines?, show endLine? ('\n' :: linesText ss) = some (linesText ss) from rfl]
    split
    next heq =>
      have hread := @ih 1 (by rw [Option.some.inj heq]; exact Nat.one_pos)
      rw [Option.some.inj heq] at hread
      exact hread
    next heq =>
      obtain rfl := Option.some.inj heq
      exact ih (by omega)
    next heq => exact nomatch heq
  | @cons s l ss ls hs h ih =>
    -- A line that is read begins with what ends no line, so it is not passed over.
    obtain ⟨c, cs, hs', hc, -⟩ := hs.front
    have htext : linesText (s :: ss) = s.toList ++ '\n' :: linesText ss := by
      rw [linesText, List.flatMap_cons, List.append_assoc]
      rfl
    have hskip : skipBlank (s.toList ++ '\n' :: linesText ss) =
        s.toList ++ '\n' :: linesText ss := by
      rw [hs', List.cons_append, skipBlank, List.dropWhile_cons, hc.1]
      rfl
    have hend : endLine? (s.toList ++ '\n' :: linesText ss) = none := by
      rw [hs']
      exact endLine?_of_front hc _
    rw [htext, List.length_append, List.length_cons] at hfuel
    obtain ⟨fuel, rfl⟩ : ∃ k, fuel = k + 1 := ⟨fuel - 1, by omega⟩
    rw [htext, Reader.lines?, hend, hskip, hs.read]
    show (Reader.lines? fuel (linesText ss)).bind _ = _
    rw [ih (by omega)]
    rfl

/-- No line of a document begins with a byte order mark. -/
theorem ReadsLines.head_ne {ss : List String} {ls : List Line} (h : ReadsLines ss ls) :
    ∀ c ∈ (linesText ss).head?, c ≠ '\uFEFF' := by
  cases h with
  | nil => exact nofun
  | empty =>
    rintro c ⟨⟩
    decide
  | cons hs _ =>
    obtain ⟨c, cs, hs', -, hc⟩ := hs.front
    rw [linesText, List.flatMap_cons, hs']
    rintro c ⟨⟩
    exact hc

/-- A path does not begin with a bracket. -/
theorem exists_dotted_eq_cons (path : List String) (key : String) :
    ∃ c cs, dotted path key = c :: cs ∧ c ≠ '[' := by
  have hkey (k : String) (tail : List Char) :
      ∃ c cs, (writeKey k).toList ++ tail = c :: cs ∧ c ≠ '[' := by
    obtain ⟨c, cs, heq, hc⟩ := exists_writeKey_eq_cons k
    refine ⟨c, cs ++ tail, by rw [heq]; rfl, ?_⟩
    rintro rfl
    revert hc
    decide
  cases path with
  | nil =>
    rw [dotted_nil, ← List.append_nil (writeKey key).toList]
    exact hkey key []
  | cons k path =>
    rw [dotted_cons]
    exact hkey k _

/-- The name in a heading is its keys with dots between them. -/
theorem toList_name (path : List String) (key : String) :
    (".".intercalate ((path ++ [key]).map writeKey)).toList = dotted path key := by
  rw [String.toList_intercalate, List.map_map]
  rfl

theorem isFront_bracket : IsFront '[' := by
  exact ⟨by decide, by decide, by decide, by decide, by decide⟩

/-- A heading is read. -/
theorem readsLine_heading {path : List String} (key : String) (hpath : path.length < maxParts) :
    ReadsLine ("[" ++ ".".intercalate ((path ++ [key]).map writeKey) ++ "]")
      (.heading path key) := by
  have htext : ("[" ++ ".".intercalate ((path ++ [key]).map writeKey) ++ "]").toList =
      '[' :: (dotted path key ++ [']']) := by
    rw [String.toList_append, String.toList_append, toList_name]
    rfl
  refine ⟨⟨_, _, htext, isFront_bracket, by decide⟩, fun rest ↦ ?_⟩
  have hkey := key?_dotted path key (']' :: '\n' :: rest) hpath (by simp; decide)
    (by simp [skipBlank, isBlank])
  obtain ⟨c, cs, heq, hc⟩ := exists_dotted_eq_cons path key
  rw [htext, List.cons_append, List.append_assoc]
  rw [heq] at hkey ⊢
  rw [line?]
  · show (key? maxParts (c :: cs ++ ']' :: '\n' :: rest)).bind _ = _
    rw [hkey]
    rfl
  · exact fun rest' h ↦ hc (List.cons.inj h).1

/-- So is a heading in double brackets. -/
theorem readsLine_rowHeading {path : List String} (key : String) (hpath : path.length < maxParts) :
    ReadsLine ("[[" ++ ".".intercalate ((path ++ [key]).map writeKey) ++ "]]")
      (.rowHeading path key) := by
  have htext : ("[[" ++ ".".intercalate ((path ++ [key]).map writeKey) ++ "]]").toList =
      '[' :: '[' :: (dotted path key ++ [']', ']']) := by
    rw [String.toList_append, String.toList_append, toList_name]
    rfl
  refine ⟨⟨_, _, htext, isFront_bracket, by decide⟩, fun rest ↦ ?_⟩
  have hkey := key?_dotted path key (']' :: ']' :: '\n' :: rest) hpath (by simp; decide)
    (by simp [skipBlank, isBlank])
  rw [htext, List.cons_append, List.cons_append, List.append_assoc, line?]
  show (key? maxParts (dotted path key ++ ']' :: ']' :: '\n' :: rest)).bind _ = _
  rw [hkey]
  rfl

/-- A value and its key are read. -/
theorem readsLine_entry {k : String} {v : Toml} (h : v.IsProper)
    (hdepth : Toml.depth v ≤ maxDepth) :
    ReadsLine (writeKey k ++ " = " ++ write true v) (.entry [] k (sorted v)) := by
  have htext : (writeKey k ++ " = " ++ write true v).toList =
      entryText k (write true v).toList := by
    simp [entryText]
  obtain ⟨c, cs, heq, hc⟩ := exists_writeKey_eq_cons k
  have hentry : entryText k (write true v).toList =
      c :: (cs ++ ' ' :: '=' :: ' ' :: (write true v).toList) := by
    rw [entryText, heq]
    rfl
  -- A key begins with a quote or a bare letter, and neither begins a comment or a heading.
  have hfront : IsFront c ∧ c ≠ '\uFEFF' ∧ c ≠ '[' := by
    obtain rfl | rfl | hbare := hc
    · exact ⟨⟨by decide, by decide, by decide, by decide, by decide⟩, by decide, by decide⟩
    · exact ⟨⟨by decide, by decide, by decide, by decide, by decide⟩, by decide, by decide⟩
    · refine ⟨isFront_of_isScalarChar (by rw [isScalarChar, hbare]; rfl), ?_, ?_⟩ <;> rintro rfl <;>
        exact absurd hbare (by decide)
  refine ⟨⟨c, _, htext.trans hentry, hfront.1, hfront.2.1⟩, fun rest ↦ ?_⟩
  have hkey := key?_entryText (show 0 < maxParts by decide) k (write true v).toList ('\n' :: rest)
  have hreads := reads_write h true
  have hvalue := hreads.read (2 * (' ' :: ((write true v).toList ++ '\n' :: rest)).length + 2)
    maxDepth ('\n' :: rest) (by simp; omega) hdepth (.of_mark (by simp) _)
  rw [htext]
  rw [hentry] at hkey ⊢
  rw [line?]
  · show (key? maxParts
      (c :: (cs ++ ' ' :: '=' :: ' ' :: (write true v).toList) ++ '\n' :: rest)).bind _ = _
    rw [hkey, Option.bind_some]
    show (value? _ maxDepth (skipBlank (' ' :: ((write true v).toList ++ '\n' :: rest)))).bind _ = _
    rw [hreads.skipBlank_append, hvalue]
    rfl
  · exact fun rest' heq ↦ hfront.2.2 (List.cons.inj heq).1
  · exact fun rest' heq ↦ hfront.2.2 (List.cons.inj heq).1

/-- The parts of a document are read as its pieces. -/
inductive ReadsParts : List Part → List Line → Prop
  | nil : ReadsParts [] []
  | cons {p : Part} {ls : List Line} {ps : List Part} {ls' : List Line}
    (hp : ReadsLines (p.heading.toList ++ p.lines) ls) (h : ReadsParts ps ls') :
    ReadsParts (p :: ps) (ls ++ ls')

/-- The parts of two documents, one behind the other, are read one behind the other. -/
theorem ReadsParts.append {ps ps' : List Part} {ls ls' : List Line} (h : ReadsParts ps ls)
    (h' : ReadsParts ps' ls') : ReadsParts (ps ++ ps') (ls ++ ls') := by
  induction h with
  | nil => exact h'
  | cons hp _ ih =>
    rw [List.append_assoc]
    exact .cons hp ih

/-- The text of the parts of a document is read. -/
theorem ReadsParts.exists_lines {ps : List Part} {ls : List Line} (h : ReadsParts ps ls)
    (begun : Bool) : ∃ ss, (joinParts begun ps).toList = linesText ss ∧ ReadsLines ss ls := by
  have htext (ss : List String) : (String.join (ss.map (· ++ "\n"))).toList = linesText ss := by
    simp [String.toList_join, linesText, List.flatMap_map]
  have happend (ss ss' : List String) : linesText (ss ++ ss') = linesText ss ++ linesText ss' :=
    List.flatMap_append
  induction h generalizing begun with
  | nil => exact ⟨[], rfl, .nil⟩
  | @cons p ls ps ls' hp _ ih =>
    obtain ⟨heading, lines⟩ := p
    cases heading with
    | none =>
      obtain ⟨ss, heq, hss⟩ := ih (begun || !lines.isEmpty)
      refine ⟨lines ++ ss, ?_, hp.append hss⟩
      rw [joinParts, String.toList_append, htext, heq, happend]
    | some heading =>
      obtain ⟨ss, heq, hss⟩ := ih true
      -- A heading has an empty line in front unless it is the first.
      refine ⟨(if begun then [""] else []) ++ (heading :: lines ++ ss), ?_, ?_⟩
      · rw [joinParts]
        cases begun <;> simp [htext, heq, linesText]
      · cases begun
        · exact hp.append hss
        · exact .empty (hp.append hss)

end Reader

/-! ### Pieces below a path -/

/-- A piece as it is below a path. -/
def Line.under (path : List String) : Line → Line
  | heading p key => heading (path ++ p) key
  | rowHeading p key => rowHeading (path ++ p) key
  | entry p key v => entry p key v

/-! ### The pieces of a document -/

/-- The tables of a row are what the array holds. -/
theorem tables?_eq_some {v : Toml} {rows : List (List (String × Toml))}
    (h : tables? v = some rows) : v = .array (rows.map .table) := by
  cases v with
  | array items =>
    cases items with
    | nil => exact nomatch h
    | cons v vs =>
      have hitems : v :: vs = rows.map .table := by
        rw [← List.forall₂_eq_eq_eq, List.forall₂_map_right_iff]
        refine (mapM_eq_some_iff.1 h).imp fun v es hv ↦ ?_
        cases v with
        | table entries => rw [Option.some.inj hv]
        | _ => exact nomatch hv
      rw [hitems]
  | _ => exact nomatch h

/-- The pieces of the entries that get no headings. -/
def entryLines (es : List (String × Toml)) : List Line :=
  (es.filter fun e ↦ !hasHeading e.2).map fun e ↦ .entry [] e.1 (sorted e.2)

/-- The heading of a table, which it has unless there are only tables in it, and at least one. -/
def ownLines (k : String) (es : List (String × Toml)) : List Line :=
  if (valueLines es).isEmpty && !es.isEmpty then [] else [.heading [] k]

/-- The pieces of an entry with headings, from those of the tables in it. -/
def headedLines (pieces : List (String × Toml) → List Line) (e : String × Toml) : List Line :=
  match e.2, tables? e.2 with
  | table es, _ => ownLines e.1 es ++ (pieces es).map (.under [e.1])
  | _, some rows => rows.flatMap fun es ↦ .rowHeading [] e.1 :: (pieces es).map (.under [e.1])
  | _, none => []

/-- The pieces of a table, without its own heading. -/
def pieces : ℕ → List (String × Toml) → List Line
  | 0, _ => []
  | d + 1, es => entryLines es ++ (ordered es).flatMap (headedLines (pieces d))

/-- A path below another one is put behind it. -/
theorem under_append (path path' : List String) (l : Line) :
    l.under (path ++ path') = (l.under path').under path := by
  cases l <;> simp [Line.under]

theorem map_under_under (path : List String) (k : String) (ls : List Line) :
    (ls.map (Line.under [k])).map (Line.under path) = ls.map (Line.under (path ++ [k])) := by
  rw [List.map_map]
  exact List.map_congr_left fun l _ ↦ (under_append path [k] l).symm

/-- Entries have no path, so they are the same below any. -/
theorem map_under_entryLines (path : List String) (es : List (String × Toml)) :
    (entryLines es).map (Line.under path) = entryLines es := by
  rw [entryLines, List.map_map]
  rfl

theorem map_under_pieces (path : List String) (k : String) (es : List (String × Toml))
    (ls : List Line) : ((entryLines es ++ ls).map (Line.under [k])).map (Line.under path) =
      entryLines es ++ ls.map (Line.under (path ++ [k])) := by
  rw [map_under_under, List.map_append, map_under_entryLines]

/-- Without lines for values there are no entries. -/
theorem entryLines_eq_nil {es : List (String × Toml)} (h : (valueLines es).isEmpty = true) :
    entryLines es = [] := by
  rw [valueLines, List.isEmpty_iff, List.map_eq_nil_iff] at h
  rw [entryLines, h, List.map_nil]

/-- An entry with headings is a table or a row of them. -/
theorem headedLines_cases (pieces : List (String × Toml) → List Line) (k : String) (v : Toml) :
    (∃ es, v = .table es ∧ hasHeading v = true ∧
      headedLines pieces (k, v) = ownLines k es ++ (pieces es).map (Line.under [k])) ∨
    (∃ rows, v = .array (rows.map .table) ∧ rows ≠ [] ∧ tables? v = some rows ∧
      hasHeading v = true ∧ headedLines pieces (k, v) =
        rows.flatMap fun es ↦ .rowHeading [] k :: (pieces es).map (Line.under [k])) ∨
    (v.isTable = false ∧ tables? v = none ∧ hasHeading v = false ∧
      headedLines pieces (k, v) = []) := by
  cases v with
  | table es => exact .inl ⟨es, rfl, rfl, rfl⟩
  | array items =>
    cases hrows : tables? (.array items) with
    | none =>
      exact .inr (.inr ⟨rfl, rfl, by rw [hasHeading, hrows]; rfl, by rw [headedLines, hrows]⟩)
    | some rows =>
      refine .inr (.inl ⟨rows, tables?_eq_some hrows, ?_, rfl, ?_, by rw [headedLines, hrows]⟩)
      · rintro rfl
        obtain rfl : items = [] := Toml.array.inj (tables?_eq_some hrows)
        exact nomatch hrows
      · rw [hasHeading, hrows]
        rfl
  | _ => exact .inr (.inr ⟨rfl, rfl, rfl, rfl⟩)

/-! ### The parts of a document -/

/-- A table whose path and depth are those of documents that can be read, and that is not too deep
to be written. -/
structure Fits (path : List String) (d : ℕ) (es : List (String × Toml)) : Prop where
  proper : (Toml.table es).IsProper
  deep : depth (.table es) ≤ d
  room : path.length + depth (.table es) ≤ Reader.maxDepth + 1

/-- What is in a table is nested less deeply. -/
theorem depth_lt_of_mem {es : List (String × Toml)} {e : String × Toml} (he : e ∈ es) :
    depth e.2 < depth (.table es) := by
  rw [depth]
  exact Nat.lt_succ_of_le (depth_le_depthEntries he)

namespace Fits

variable {path : List String} {d : ℕ} {k : String} {es inner : List (String × Toml)}
  {e : String × Toml}

/-- What is in a table that fits is proper, -/
theorem isProper (h : Fits path d es) (he : e ∈ es) : e.2.IsProper := by
  cases h.proper with
  | table _ hes => exact hes e he

/-- its keys are all different, -/
theorem nodup (h : Fits path d es) : (es.map Prod.fst).Nodup := by
  cases h.proper with
  | table hkeys _ => exact hkeys

theorem exists_succ (h : Fits path d es) : ∃ d', d = d' + 1 := by
  have hdeep := h.deep
  rw [depth] at hdeep
  exact ⟨d - 1, by omega⟩

/-- and its path is short enough for a heading. -/
theorem length_lt (h : Fits (path ++ [k]) d es) : path.length < Reader.maxParts := by
  have hroom := h.room
  rw [List.length_append, List.length_singleton, depth] at hroom
  change path.length + 1 + _ ≤ 79 + 1 at hroom
  exact Nat.lt_of_succ_le (by change _ ≤ 79; omega)

/-- A table in an entry. -/
theorem below (h : Fits path (d + 1) es) (he : e ∈ es) (hproper : (Toml.table inner).IsProper)
    (hle : depth (.table inner) ≤ depth e.2) : Fits (path ++ [e.1]) d inner := by
  have hlt := depth_lt_of_mem he
  have hdeep := h.deep
  have hroom := h.room
  refine ⟨hproper, by omega, ?_⟩
  rw [List.length_append, List.length_singleton]
  omega

/-- A table in a table fits, -/
theorem table (h : Fits path (d + 1) es) (he : (k, .table inner) ∈ es) :
    Fits (path ++ [k]) d inner :=
  h.below he (h.isProper he) (Nat.le_refl _)

/-- and so does each table of a row. -/
theorem row {rows : List (List (String × Toml))} (h : Fits path (d + 1) es)
    (he : (k, .array (rows.map .table)) ∈ es) (hinner : inner ∈ rows) :
    Fits (path ++ [k]) d inner := by
  have hmem : Toml.table inner ∈ rows.map Toml.table := List.mem_map_of_mem hinner
  refine h.below he ?_ ?_
  · cases h.isProper he with
    | array hitems => exact hitems _ hmem
  · rw [depth.eq_def (.array _)]
    exact (depth_le_depthItems hmem).trans (Nat.le_succ _)

end Fits

namespace Reader

variable {path : List String} {k : String} {d : ℕ} {es : List (String × Toml)} {ls : List Line}

/-- The lines for values are read as entries. -/
theorem readsLines_valueLines (h : Fits path d es) :
    ReadsLines (valueLines es) (entryLines es) := by
  have hentry : ∀ e ∈ es.filter fun e ↦ !hasHeading e.2,
      ReadsLine (writeKey e.1 ++ " = " ++ write true e.2) (.entry [] e.1 (sorted e.2)) := by
    intro e he
    have hmem := List.mem_of_mem_filter he
    have hlt := depth_lt_of_mem hmem
    have hroom := h.room
    exact readsLine_entry (h.isProper hmem) (by omega)
  rw [valueLines, entryLines]
  revert hentry
  induction es.filter fun e ↦ !hasHeading e.2 with
  | nil => exact fun _ ↦ .nil
  | cons e ws ih =>
    intro hentry
    obtain ⟨he, hws⟩ := List.forall_mem_cons.1 hentry
    exact .cons he (ih hws)

/-- The parts of a table are read if those of the tables in it are. -/
theorem readsParts_table (h : Fits (path ++ [k]) (d + 1) es)
    (hbelow : ReadsParts (partsBelow (path ++ [k]) d (ordered es))
      (ls.map (Line.under (path ++ [k])))) :
    ReadsParts (partsOf .table (path ++ [k]) (d + 1) es)
      ((ownLines k es ++ (entryLines es ++ ls).map (Line.under [k])).map (Line.under path)) := by
  have hvalues := readsLines_valueLines h
  have hheading := readsLine_heading k h.length_lt
  rw [List.map_append, map_under_pieces, partsOf, ownLines]
  by_cases hown : ((valueLines es).isEmpty && !es.isEmpty) = true
  · rw [if_pos hown, if_pos hown, entryLines_eq_nil (Bool.and_eq_true_iff.1 hown).1]
    exact hbelow
  · have hpath : [Line.heading [] k].map (Line.under path) = [.heading path k] := by
      simp [Line.under]
    rw [if_neg hown, if_neg hown, hpath, ← List.append_assoc]
    exact .cons (.cons hheading hvalues) hbelow

/-- A table of a row is read below a heading of its own. -/
theorem readsParts_row (h : Fits (path ++ [k]) (d + 1) es)
    (hbelow : ReadsParts (partsBelow (path ++ [k]) d (ordered es))
      (ls.map (Line.under (path ++ [k])))) :
    ReadsParts (partsOf .item (path ++ [k]) (d + 1) es)
      ((.rowHeading [] k :: (entryLines es ++ ls).map (Line.under [k])).map (Line.under path)) := by
  have hheading := readsLine_rowHeading k h.length_lt
  have hpath : (Line.rowHeading [] k).under path = .rowHeading path k := by
    simp [Line.under]
  rw [List.map_cons, map_under_pieces, hpath, partsOf, ← List.cons_append]
  exact .cons (.cons hheading (readsLines_valueLines h)) hbelow

/-- Parts are read one after the other. -/
theorem readsParts_flatMap {α : Type} {xs : List α} {parts : α → List Part} {lines : α → List Line}
    (h : ∀ x ∈ xs, ReadsParts (parts x) ((lines x).map (Line.under path))) :
    ReadsParts (xs.flatMap parts) ((xs.flatMap lines).map (Line.under path)) := by
  induction xs with
  | nil => exact .nil
  | cons x xs ih =>
    obtain ⟨hx, hxs⟩ := List.forall_mem_cons.1 h
    rw [List.flatMap_cons, List.flatMap_cons, List.map_append]
    exact hx.append (ih hxs)

/-- The parts of the tables in a table are read. -/
theorem readsParts_partsBelow (h : Fits path (d + 1) es) :
    ReadsParts (partsBelow path d (ordered es))
      (((ordered es).flatMap (headedLines (pieces d))).map (Line.under path)) := by
  -- The outer induction goes down into the tables, the inner one along the entries of one.
  induction d using Nat.strong_induction_on generalizing path es with
  | _ d ih =>
  have htable {k : String} {inner : List (String × Toml)} (hinner : Fits (path ++ [k]) d inner) :
      ReadsParts (partsOf .table (path ++ [k]) d inner)
          ((ownLines k inner ++ (pieces d inner).map (Line.under [k])).map (Line.under path)) ∧
        ReadsParts (partsOf .item (path ++ [k]) d inner)
          ((.rowHeading [] k :: (pieces d inner).map (Line.under [k])).map (Line.under path)) := by
    obtain ⟨d, rfl⟩ := hinner.exists_succ
    have hbelow := ih d (Nat.lt_succ_self d) hinner
    exact ⟨readsParts_table hinner hbelow, readsParts_row hinner hbelow⟩
  have hmem : ∀ e ∈ ordered es, e ∈ es := fun e he ↦ (ordered_perm es).mem_iff.1 he
  revert hmem
  induction ordered es with
  | nil =>
    intro _
    rw [partsBelow]
    exact .nil
  | cons e ws ihws =>
    intro hmem
    obtain ⟨k, v⟩ := e
    obtain ⟨he, hws⟩ := List.forall_mem_cons.1 hmem
    rw [List.flatMap_cons, List.map_append, partsBelow.eq_def path d ((k, v) :: ws)]
    refine .append ?_ (ihws hws)
    obtain ⟨inner, rfl, -, hlines⟩ | ⟨rows, rfl, -, hrows, -, hlines⟩ | ⟨htab, hrows, -, hlines⟩ :=
      headedLines_cases (pieces d) k v
    · rw [hlines]
      exact (htable (h.table he)).1
    · simp only [hlines, hrows]
      exact readsParts_flatMap fun inner hinner ↦ (htable (h.row he hinner)).2
    · simp only [hlines, hrows]
      cases v with
      | table _ => exact absurd htab.symm Bool.false_ne_true
      | _ => exact .nil

end Reader

/-- **The text of a table is read as its pieces.** -/
theorem read?_document_eq {es : List (String × Toml)} (h : Fits [] (depth (.table es) + 1) es) :
    read? (document es) = ofLines? (pieces (depth (.table es) + 1) es) := by
  have hbelow := Reader.readsParts_partsBelow h
  -- The path of the root is empty.
  have hroot : ∀ l ∈ (ordered es).flatMap (headedLines (pieces (depth (.table es)))),
      l.under [] = id l := fun l _ ↦ by cases l <;> rfl
  rw [List.map_congr_left hroot, List.map_id] at hbelow
  have hparts : Reader.ReadsParts (partsOf .root [] (depth (.table es) + 1) es)
      (pieces (depth (.table es) + 1) es) := by
    rw [partsOf, pieces]
    exact .cons (Reader.readsLines_valueLines h) hbelow
  obtain ⟨ss, htext, hss⟩ := hparts.exists_lines false
  have hread := hss.lines? (Nat.lt_succ_self _)
  rw [read?, document, htext]
  show (Reader.lines? _ _).bind ofLines? = _
  split
  next heq => exact absurd rfl (hss.head_ne _ (by rw [heq]; rfl))
  next =>
    rw [hread]
    rfl

end BslLint.Toml
