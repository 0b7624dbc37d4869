import BslLint.Proofs.Data.Toml.Scalars
import BslLint.Proofs.Data.Toml.Strings

/-!
# Values are read as they were written

A value inside of a line, or over several lines where it is an array, is read back whatever follows,
as long as it could not be taken for more of the value (`Reader.reads_write`). Tables come back with
their entries in the order of their keys. By induction on the value it is enough to put together
arrays and tables from the texts of what is in them.
-/

namespace BslLint.Toml

namespace Reader

variable {α : Type} {fuel level depth : ℕ} {rest : List Char}

/-- A character that begins a value: reading does not go past it to find one. -/
def IsFront (c : Char) : Prop :=
  isBlank c = false ∧ c ≠ '\n' ∧ c ≠ '\x0d' ∧ c ≠ '#' ∧ c ≠ ']'

/-- A text is read as a value that is nested as deep as `level` says, if enough is allowed. -/
structure Reads (text : List Char) (level : ℕ) (v : Toml) : Prop where
  front : ∃ c cs, text = c :: cs ∧ IsFront c
  read : ∀ fuel depth rest, 2 * text.length ≤ fuel → level ≤ depth → EndsValue rest →
    value? fuel depth (text ++ rest) = some (v, rest)

/-- In front of a value nothing is skipped. -/
theorem skipLines_of_front {c : Char} (h : IsFront c) (cs : List Char) :
    skipLines false (c :: cs) = c :: cs := by
  obtain ⟨hblank, hline, hreturn, hcomment, -⟩ := h
  rw [skipLines, if_neg Bool.false_ne_true, if_neg (by simp [hblank]), if_neg hcomment]
  · exact hline
  · exact fun _ h ↦ absurd h hreturn

/-- A comma, a bracket or the end of the line ends a value, -/
theorem EndsValue.of_mark {mark : Char} (h : mark = ',' ∨ mark = ']' ∨ mark = '\n')
    (rest : List Char) : EndsValue (mark :: rest) := by
  obtain rfl | rfl | rfl := h <;> exact ⟨by simp [isScalarChar, isBareKeyChar], rfl⟩

/-- and so does a brace behind a blank. -/
theorem EndsValue.of_close (rest : List Char) : EndsValue (' ' :: '\x7d' :: rest) := by
  refine ⟨by simp [isScalarChar, isBareKeyChar], ?_⟩
  unfold timeFollows
  split
  next heq =>
    obtain rfl := (List.cons.inj (List.cons.inj heq).2).1
    rfl
  next => rfl

/-! ### Arrays -/

section

variable {write : α → List Char} {result : α → Toml}

/-- An item of an array on a line of its own. -/
def itemLine (text : List Char) : List Char :=
  '\n' :: ' ' :: ' ' :: ' ' :: ' ' :: (text ++ [','])

/-- The line and the blanks in front of an item are skipped. -/
theorem skipLines_itemLine {text : List Char} {v : Toml} (h : Reads text level v)
    (rest : List Char) : skipLines false (itemLine text ++ rest) = text ++ ',' :: rest := by
  obtain ⟨c, cs, rfl, hc⟩ := h.front
  have hskip := skipLines_of_front hc (cs ++ ',' :: rest)
  simpa [itemLine, skipLines, isBlank] using hskip

/-- Reading of items goes on behind one of them. -/
theorem items?_of_reads {text gap : List Char} {v : Toml} (h : Reads text level v)
    (hlevel : level ≤ depth) (hfuel : 2 * text.length ≤ fuel)
    (hgap : skipLines false gap = text ++ rest) (hrest : EndsValue rest) :
    items? (fuel + 1) depth gap =
      match skipLines false rest with
      | ']' :: rest => some ([v], rest)
      | ',' :: rest => (items? fuel depth rest).map fun r ↦ (v :: r.1, r.2)
      | _ => none := by
  obtain ⟨c, cs, rfl, hc⟩ := h.front
  rw [items?, hgap]
  split
  next rest' heq => exact absurd (List.cons.inj heq).1 hc.2.2.2.2
  next =>
    rw [h.read fuel depth rest hfuel hlevel hrest]
    show (match skipLines false rest with
      | ']' :: rest => _
      | ',' :: rest => _
      | _ => none) = _
    split
    next => rfl
    next => cases items? fuel depth _ <;> rfl
    next => rfl

/-- Items of an array on lines of their own are read. -/
theorem items?_lines {vs : List α} (h : ∀ v ∈ vs, Reads (write v) level (result v))
    (hlevel : level ≤ depth) (rest : List Char)
    (hfuel : 2 * (vs.flatMap fun v ↦ itemLine (write v)).length + 1 ≤ fuel) :
    items? fuel depth ((vs.flatMap fun v ↦ itemLine (write v)) ++ '\n' :: ']' :: rest) =
      some (vs.map result, rest) := by
  obtain ⟨fuel, rfl⟩ : ∃ k, fuel = k + 1 := ⟨fuel - 1, by omega⟩
  induction vs generalizing fuel with
  | nil => simp [items?, skipLines, isBlank]
  | cons v vs ih =>
    obtain ⟨hv, hvs⟩ := List.forall_mem_cons.1 h
    have hlength : (itemLine (write v)).length = (write v).length + 6 := by simp [itemLine]
    rw [List.flatMap_cons, List.length_append, hlength] at hfuel
    obtain ⟨fuel, rfl⟩ : ∃ k, fuel = k + 1 := ⟨fuel - 1, by omega⟩
    rw [List.flatMap_cons, List.append_assoc, items?_of_reads hv hlevel (by omega)
      (skipLines_itemLine hv _) (.of_mark (.inl rfl) _)]
    simp [skipLines, isBlank, ih hvs fuel (by omega)]

/-- In a line there is at most one blank to skip. -/
theorem Reads.skipLines_append {text : List Char} {v : Toml} (h : Reads text level v)
    {gap : List Char} (hgap : gap = [] ∨ gap = [' ']) (tail : List Char) :
    skipLines false (gap ++ (text ++ tail)) = text ++ tail := by
  obtain ⟨c, cs, rfl, hc⟩ := h.front
  obtain rfl | rfl := hgap <;> exact skipLines_of_front hc _

/-- Items of an array in a line are read, behind a blank or not. -/
theorem items?_intercalate {v : α} {vs : List α}
    (h : ∀ w ∈ v :: vs, Reads (write w) level (result w)) (hlevel : level ≤ depth)
    (rest gap : List Char) (hgap : gap = [] ∨ gap = [' '])
    (hfuel : 2 * ([',', ' '].intercalate ((v :: vs).map write)).length + 1 ≤ fuel) :
    items? fuel depth (gap ++ ([',', ' '].intercalate ((v :: vs).map write) ++ ']' :: rest)) =
      some ((v :: vs).map result, rest) := by
  obtain ⟨fuel, rfl⟩ : ∃ k, fuel = k + 1 := ⟨fuel - 1, by omega⟩
  have hv := h v List.mem_cons_self
  induction vs generalizing v fuel gap with
  | nil =>
    rw [List.map_singleton, List.intercalate_singleton] at hfuel ⊢
    rw [items?_of_reads hv hlevel (by omega) (hv.skipLines_append hgap _) (.of_mark (by simp) _)]
    rfl
  | cons w ws ih =>
    rw [List.map_cons, List.map_cons, List.intercalate_cons_cons, ← List.map_cons] at hfuel ⊢
    rw [List.length_append, List.length_append, List.length_cons] at hfuel
    obtain ⟨fuel, rfl⟩ : ∃ k, fuel = k + 1 := ⟨fuel - 1, by omega⟩
    have htail := ih (fun x hx ↦ h x (List.mem_cons_of_mem _ hx)) [' '] (.inr rfl) fuel
      (by omega) (h w (by simp))
    simp only [List.append_assoc, List.cons_append, List.nil_append] at htail ⊢
    rw [items?_of_reads hv hlevel (by omega) (hv.skipLines_append hgap _) (.of_mark (by simp) _)]
    simpa [skipLines, isBlank] using htail

end

/-- An array is read from what stands in its brackets. -/
theorem reads_array {text : List Char} {vs : List Toml}
    (h : ∀ fuel depth rest, 2 * text.length + 1 ≤ fuel → level ≤ depth →
      items? fuel depth (text ++ ']' :: rest) = some (vs, rest)) :
    Reads ('[' :: (text ++ [']'])) (level + 1) (.array vs) := by
  refine ⟨⟨_, _, rfl, by decide, by decide, by decide, by decide, by decide⟩, ?_⟩
  intro fuel depth rest hfuel hlevel _
  obtain ⟨depth, rfl⟩ : ∃ k, depth = k + 1 := ⟨depth - 1, by omega⟩
  simp only [List.length_cons, List.length_append] at hfuel
  obtain ⟨fuel, rfl⟩ : ∃ k, fuel = k + 1 := ⟨fuel - 1, by omega⟩
  have hitems := h fuel depth rest (by omega) (by omega)
  simp only [List.cons_append, List.append_assoc, List.nil_append]
  rw [value?, hitems]
  rfl

/-! ### Tables in a line -/

/-- The text of an entry. -/
def entryText (k : String) (text : List Char) : List Char :=
  (writeKey k).toList ++ ' ' :: '=' :: ' ' :: text

theorem key?_blank (parts : ℕ) {gap : List Char} (hgap : gap = [] ∨ gap = [' ']) (cs : List Char) :
    key? parts (gap ++ cs) = key? parts cs := by
  obtain rfl | rfl := hgap
  · rfl
  · cases parts <;> rfl

/-- The key of an entry ends where the blank in front of the equals sign does. -/
theorem key?_entryText {parts : ℕ} (hparts : 0 < parts) (k : String) (text rest : List Char) :
    key? parts (entryText k text ++ rest) = some ([], k, '=' :: ' ' :: (text ++ rest)) := by
  have hkey := key?_dotted [] k (' ' :: '=' :: ' ' :: (text ++ rest)) hparts (by simp; decide)
    (by simp [skipBlank, isBlank])
  rw [dotted_nil] at hkey
  rw [entryText, List.append_assoc]
  exact hkey

theorem Reads.skipBlank_append {text : List Char} {v : Toml} (h : Reads text level v)
    (tail : List Char) : skipBlank (' ' :: (text ++ tail)) = text ++ tail := by
  obtain ⟨c, cs, rfl, hc⟩ := h.front
  show skipBlank (c :: cs ++ tail) = c :: cs ++ tail
  refine skipBlank_of_head fun d hd ↦ ?_
  obtain rfl := Option.some.inj hd
  exact hc.1

section

variable {text gap tail : List Char} {k : String} {v : Toml}

/-- Reading of entries ends at the brace behind one of them. -/
theorem entries?_of_close (h : Reads text level v) (hlevel : level ≤ depth)
    (hfuel : 2 * text.length ≤ fuel) (hgap : gap = [] ∨ gap = [' ']) (hrest : EndsValue rest)
    (hclose : skipBlank rest = '\x7d' :: tail) :
    entries? (fuel + 1) depth (gap ++ (entryText k text ++ rest)) =
      some ([.entry [] k v], tail) := by
  rw [entries?, key?_blank _ hgap, key?_entryText (by decide)]
  simp only [Option.bind_eq_bind, Option.bind_some, h.skipBlank_append,
    h.read fuel depth rest hfuel hlevel hrest, hclose]
  rfl

/-- Reading of entries goes on at the comma behind one of them. -/
theorem entries?_of_comma (h : Reads text level v) (hlevel : level ≤ depth)
    (hfuel : 2 * text.length ≤ fuel) (hgap : gap = [] ∨ gap = [' ']) (hrest : EndsValue rest)
    (hcomma : skipBlank rest = ',' :: tail) :
    entries? (fuel + 1) depth (gap ++ (entryText k text ++ rest)) =
      (entries? fuel depth tail).map fun r ↦ (.entry [] k v :: r.1, r.2) := by
  rw [entries?, key?_blank _ hgap, key?_entryText (by decide)]
  simp only [Option.bind_eq_bind, Option.bind_some, h.skipBlank_append,
    h.read fuel depth rest hfuel hlevel hrest, hcomma]
  cases entries? fuel depth tail <;> rfl

end

/-- Entries of a table in a line are read, behind a blank or not. -/
theorem entries?_intercalate {write : α → List Char} {result : α → Toml} (key : α → String)
    {e : α} {es : List α} (h : ∀ w ∈ e :: es, Reads (write w) level (result w))
    (hlevel : level ≤ depth) (rest gap : List Char) (hgap : gap = [] ∨ gap = [' '])
    (hfuel : 2 * ([',', ' '].intercalate
      ((e :: es).map fun e ↦ entryText (key e) (write e))).length + 1 ≤ fuel) :
    entries? fuel depth (gap ++ ([',', ' '].intercalate
        ((e :: es).map fun e ↦ entryText (key e) (write e)) ++ ' ' :: '\x7d' :: rest)) =
      some ((e :: es).map fun e ↦ .entry [] (key e) (result e), rest) := by
  have hlength (e : α) : (write e).length + 3 ≤ (entryText (key e) (write e)).length := by
    simp [entryText]
  obtain ⟨fuel, rfl⟩ : ∃ k, fuel = k + 1 := ⟨fuel - 1, by omega⟩
  have he := h e List.mem_cons_self
  -- Only the first entry may have a gap in front; behind a comma there is always one blank.
  induction es generalizing e fuel gap with
  | nil =>
    rw [List.map_singleton, List.intercalate_singleton] at hfuel ⊢
    have := hlength e
    exact entries?_of_close he hlevel (by omega) hgap (.of_close rest) rfl
  | cons w ws ih =>
    rw [List.map_cons, List.map_cons, List.intercalate_cons_cons,
      ← List.map_cons (f := fun e ↦ entryText (key e) (write e))] at hfuel ⊢
    rw [List.length_append, List.length_append, List.length_cons] at hfuel
    have := hlength e
    obtain ⟨fuel, rfl⟩ : ∃ k, fuel = k + 1 := ⟨fuel - 1, by omega⟩
    have htail := ih (fun x hx ↦ h x (List.mem_cons_of_mem _ hx)) [' '] (.inr rfl)
      fuel (by omega) (h w (by simp))
    simp only [List.append_assoc, List.cons_append, List.nil_append] at htail ⊢
    rw [entries?_of_comma he hlevel (by omega) hgap (.of_mark (by simp) _) rfl, htail]
    rfl

end Reader

/-! ### The order of entries -/

/-- Ordering the entries neither adds any nor loses any. -/
theorem ordered_perm (entries : List (String × Toml)) : (ordered entries).Perm entries := by
  induction entries with
  | nil => exact .nil
  | cons e es ih =>
    rw [ordered] at ih ⊢
    -- The three kinds of entries exclude each other, so each entry falls into one of the filters.
    have hexclusive : e.2.isTable = true → e.2.isArrayWithTables = false := by
      cases e.2 <;> simp [isTable, isArrayWithTables]
    cases htable : e.2.isTable with
    | true =>
      have harray := hexclusive htable
      simp only [List.filter_cons, htable, harray, Bool.not_true, Bool.false_and,
        Bool.false_eq_true, if_false, if_true]
      exact List.perm_middle.trans (ih.cons e)
    | false =>
      cases harray : e.2.isArrayWithTables with
      | true =>
        simp only [List.filter_cons, htable, harray, Bool.not_true, Bool.and_false,
          Bool.false_eq_true, if_false, if_true]
        rw [List.append_assoc, List.cons_append]
        rw [List.append_assoc] at ih
        exact List.perm_middle.trans (ih.cons e)
      | false =>
        simp only [List.filter_cons, htable, harray, Bool.not_false, Bool.and_true,
          Bool.false_eq_true, if_false, if_true]
        exact ih.cons e

/-! ### Entries of tables -/

theorem toTomlEntries_values (es : List (String × Toml)) :
    Item.toTomlEntries (es.map fun e ↦ (e.1, .value e.2)) = es := by
  induction es with
  | nil => rw [List.map_nil, Item.toTomlEntries]
  | cons e es ih => rw [List.map_cons, Item.toTomlEntries, Item.toToml, ih]

/-- A value is added to the table that is being read. -/
theorem assign_eq {k : String} {root : Item.Entries} (h : k ∉ root.map Prod.fst) (v : Toml) :
    Item.assign [] k v root = some (root ++ [(k, .value v)]) := by
  have hfind : Item.find? root k = none := KeyMap.find?_eq_none h
  simp [Item.assign, Item.update, hfind]

/-- Entries whose keys are all new are added one by one. -/
theorem foldlM_entries {es : List (String × Toml)} {root : Item.Entries}
    (h : (root.map Prod.fst ++ es.map Prod.fst).Nodup) :
    (es.map fun e ↦ Line.entry [] e.1 e.2).foldlM Draft.add ⟨root, []⟩ =
      some ⟨root ++ es.map fun e ↦ (e.1, .value e.2), []⟩ := by
  induction es generalizing root with
  | nil => simp
  | cons e es ih =>
    have hfresh : e.1 ∉ root.map Prod.fst := fun hmem ↦
      (List.nodup_append.1 h).2.2 _ hmem _ List.mem_cons_self rfl
    have hadd : Draft.add ⟨root, []⟩ (.entry [] e.1 e.2) =
        some ⟨root ++ [(e.1, .value e.2)], []⟩ := by
      rw [Draft.add, Item.update, assign_eq hfresh]
      rfl
    rw [List.map_cons, List.foldlM_cons, hadd]
    show (es.map _).foldlM Draft.add _ = _
    rw [ih]
    · simp
    · simpa using h

/-- Entries with names that are all different make up a table. -/
theorem ofLines?_entries {es : List (String × Toml)} (h : (es.map Prod.fst).Nodup) :
    ofLines? (es.map fun e ↦ .entry [] e.1 e.2) = some (.table (KeyMap.ofList es)) := by
  rw [ofLines?, foldlM_entries (by simpa using h)]
  show some (Item.table false false ([] ++ es.map fun e ↦ (e.1, .value e.2))).toToml = _
  rw [List.nil_append, Item.toToml, toTomlEntries_values]

/-! ### Values -/

/-- A value that can be written: as a regular one, but with the entries of its tables in any
order. -/
inductive IsProper : Toml → Prop
  | str {s : String} : IsProper (.str s)
  | int {n : Int} (h : Text.fitsInt64 n = true) : IsProper (.int n)
  | float {x : Float} (h : x.isNaN = false) : IsProper (.float x)
  | bool {b : Bool} : IsProper (.bool b)
  | datetime {d : Datetime} (h : d.IsRegular) : IsProper (.datetime d)
  | array {items : List Toml} (h : ∀ v ∈ items, IsProper v) : IsProper (.array items)
  | table {entries : List (String × Toml)} (hkeys : (entries.map Prod.fst).Nodup)
    (h : ∀ e ∈ entries, IsProper e.2) : IsProper (.table entries)

/-- A regular value can be written. -/
theorem IsRegular.isProper {v : Toml} (h : v.IsRegular) : v.IsProper := by
  induction h with
  | str => exact .str
  | int h => exact .int h
  | float h => exact .float h
  | bool => exact .bool
  | datetime h => exact .datetime h
  | array _ ih => exact .array ih
  | table hkeys _ ih => exact .table hkeys.nodup ih

section

variable (lines : Bool)

theorem writeItems_eq_map (vs : List Toml) : writeItems lines vs = vs.map (write lines) := by
  induction vs with
  | nil => rw [writeItems, List.map_nil]
  | cons v vs ih => rw [writeItems, ih, List.map_cons]

theorem writeEntries_eq_map (es : List (String × Toml)) :
    writeEntries lines es = es.map fun e ↦ (e.1, write lines e.2) := by
  induction es with
  | nil => rw [writeEntries, List.map_nil]
  | cons e es ih => rw [writeEntries, ih, List.map_cons]

/-- Items are as deep as the deepest of them, -/
theorem depthItems_le_iff {vs : List Toml} {n : ℕ} : depthItems vs ≤ n ↔ ∀ v ∈ vs, depth v ≤ n := by
  induction vs with
  | nil => exact ⟨nofun, fun _ ↦ by rw [depthItems]; exact Nat.zero_le n⟩
  | cons v vs ih => rw [depthItems, Nat.max_le, ih, List.forall_mem_cons]

/-- and so are entries. -/
theorem depthEntries_le_iff {es : List (String × Toml)} {n : ℕ} :
    depthEntries es ≤ n ↔ ∀ e ∈ es, depth e.2 ≤ n := by
  induction es with
  | nil => exact ⟨nofun, fun _ ↦ by rw [depthEntries]; exact Nat.zero_le n⟩
  | cons e es ih => rw [depthEntries, Nat.max_le, ih, List.forall_mem_cons]

theorem depth_le_depthItems {vs : List Toml} {v : Toml} (h : v ∈ vs) : depth v ≤ depthItems vs :=
  depthItems_le_iff.1 (Nat.le_refl _) v h

theorem depth_le_depthEntries {es : List (String × Toml)} {e : String × Toml} (h : e ∈ es) :
    depth e.2 ≤ depthEntries es :=
  depthEntries_le_iff.1 (Nat.le_refl _) e h

/-- A table in a line is its entries between braces, in the order in which they are written. -/
theorem toList_write_table {es : List (String × Toml)} (h : (es.map Prod.fst).Nodup) :
    (write lines (.table es)).toList = if es = [] then ['\x7b', '\x7d']
      else '\x7b' :: ' ' :: ([',', ' '].intercalate
        ((ordered es).map fun e ↦ Reader.entryText e.1 (write lines e.2).toList) ++
          [' ', '\x7d']) := by
  have hwritten : (ordered es).map
      (fun e ↦ (e.1, (KeyMap.find? (writeEntries lines es) e.1).getD "")) =
      (ordered es).map fun e ↦ (e.1, write lines e.2) := by
    refine List.map_congr_left fun e he ↦ ?_
    have hfind := (KeyMap.find?_eq_some_iff h).2 ((ordered_perm es).mem_iff.1 he)
    rw [writeEntries_eq_map, KeyMap.find?_map, hfind]
    rfl
  have hempty : (ordered es).isEmpty = true ↔ es = [] := by
    rw [List.isEmpty_iff]
    exact ⟨fun hnil ↦ ((hnil ▸ ordered_perm es).nil_eq).symm, fun hnil ↦ by rw [hnil]; rfl⟩
  rw [write]
  simp only [hwritten, braced, List.isEmpty_map, hempty]
  split
  · rfl
  · simp [String.toList_intercalate, Reader.entryText, Function.comp_def]

end

namespace Reader

/-- Numbers and dates begin with no blank and no mark. -/
theorem isFront_of_isScalarChar {c : Char} (h : isScalarChar c = true) : IsFront c := by
  have hne {d : Char} (hd : isScalarChar d = false) : c ≠ d := by
    rintro rfl
    exact Bool.false_ne_true (hd.symm.trans h)
  refine ⟨?_, hne (by decide), hne (by decide), hne (by decide), hne (by decide)⟩
  rw [isBlank, Bool.or_eq_false_iff, beq_eq_false_iff_ne, beq_eq_false_iff_ne]
  exact ⟨hne (by decide), hne (by decide)⟩

/-- A string begins with a quote of one of the two sorts. -/
theorem exists_writeString_cons (oneLine : Bool) (s : String) :
    ∃ c cs, (writeString oneLine s).toList = c :: cs ∧ (c = '"' ∨ c = '\'') := by
  obtain h | ⟨h, -⟩ | ⟨-, h | ⟨h, -⟩⟩ := writeString_cases oneLine s
  · exact ⟨_, _, h, .inl rfl⟩
  · exact ⟨_, _, h, .inr rfl⟩
  · exact ⟨_, _, h, .inl rfl⟩
  · exact ⟨_, _, h, .inr rfl⟩

/-- A string is read as it was written. -/
theorem reads_string (s : String) : Reads (writeString false s).toList 0 (.str s) := by
  obtain ⟨c, cs, heq, hc⟩ := exists_writeString_cons false s
  refine ⟨⟨c, cs, heq, ?_⟩, fun fuel depth rest hfuel _ hrest ↦ ?_⟩
  · obtain rfl | rfl := hc <;> exact ⟨by decide, by decide, by decide, by decide, by decide⟩
  · rw [heq, List.length_cons] at hfuel
    obtain ⟨fuel, rfl⟩ : ∃ k, fuel = k + 1 := ⟨fuel - 1, by omega⟩
    exact value?_writeString fuel depth s fun d hd ↦ (hrest.head d hd).2

/-- So are numbers, truth values and dates. -/
theorem reads_scalar {cs : List Char} {v : Toml} (h : IsScalar cs v) : Reads cs 0 v := by
  obtain ⟨c, cs, rfl⟩ := List.exists_cons_of_ne_nil h.ne
  refine ⟨⟨c, cs, rfl, isFront_of_isScalarChar (h.chars c List.mem_cons_self)⟩,
    fun fuel depth rest hfuel _ hrest ↦ ?_⟩
  rw [List.length_cons] at hfuel
  obtain ⟨fuel, rfl⟩ : ∃ k, fuel = k + 1 := ⟨fuel - 1, by omega⟩
  exact value?_scalar h hrest fuel depth

/-- Items in a line are separated by a comma and a blank. -/
theorem reads_inline {write : Toml → List Char} {vs : List Toml}
    (h : ∀ v ∈ vs, Reads (write v) level (sorted v)) :
    Reads ('[' :: ([',', ' '].intercalate (vs.map write) ++ [']'])) (level + 1)
      (.array (vs.map sorted)) := by
  refine reads_array fun fuel depth rest hfuel hlevel ↦ ?_
  cases vs with
  | nil =>
    obtain ⟨fuel, rfl⟩ : ∃ k, fuel = k + 1 := ⟨fuel - 1, by omega⟩
    rfl
  | cons v vs => exact items?_intercalate h hlevel rest [] (.inl rfl) hfuel

/-- An array is read, if its items are. -/
theorem reads_bracketed (lines : Bool) {vs : List Toml}
    (h : ∀ v ∈ vs, Reads (write lines v).toList level (sorted v)) :
    Reads (bracketed lines (vs.map (write lines))).toList (level + 1) (.array (vs.map sorted)) := by
  have hinline := reads_inline h
  rw [bracketed.eq_def]
  split
  next s t ts heq =>
    have hlines : Reads ('[' :: ((vs.flatMap fun v ↦ itemLine (write true v).toList) ++ ['\n'] ++
        [']'])) (level + 1) (.array (vs.map sorted)) := by
      refine reads_array fun fuel depth rest hfuel hlevel ↦ ?_
      rw [List.append_assoc]
      rw [List.length_append] at hfuel
      exact items?_lines h hlevel rest (by omega)
    simpa [String.toList_join, itemLine, List.flatMap_map] using hlines
  next => simpa [String.toList_intercalate, Function.comp_def] using hinline

/-- Entries begin with a key, so with no blank and no brace. -/
theorem exists_entries_eq_cons (e : α) (es : List α) (write : α → List Char) (key : α → String) :
    ∃ c cs, [',', ' '].intercalate ((e :: es).map fun e ↦ entryText (key e) (write e)) = c :: cs ∧
      isBlank c = false ∧ c ≠ '\x7d' := by
  obtain ⟨tail, htail⟩ := exists_intercalate_cons [',', ' '] (entryText (key e) (write e))
    (es.map fun e ↦ entryText (key e) (write e))
  obtain ⟨c, cs, heq, hc⟩ := exists_writeKey_eq_cons (key e)
  refine ⟨c, _, by rw [List.map_cons, htail, entryText, heq]; rfl, ?_⟩
  obtain rfl | rfl | hbare := hc
  · exact ⟨by decide, by decide⟩
  · exact ⟨by decide, by decide⟩
  · have hscalar : isScalarChar c = true := by rw [isScalarChar, hbare]; rfl
    refine ⟨(isFront_of_isScalarChar hscalar).1, ?_⟩
    rintro rfl
    exact absurd hscalar (by decide)

/-- The entries of a table in a line make up a table with the same values under the keys. -/
theorem ofLines?_ordered {es : List (String × Toml)} (hkeys : (es.map Prod.fst).Nodup)
    (f : Toml → Toml) : ofLines? ((ordered es).map fun e ↦ .entry [] e.1 (f e.2)) =
      some (.table (KeyMap.ofList (es.map fun e ↦ (e.1, f e.2)))) := by
  have hperm := ordered_perm es
  have hmap := hperm.map fun e ↦ (e.1, f e.2)
  have hnodup : (((ordered es).map fun e ↦ (e.1, f e.2)).map Prod.fst).Nodup := by
    rw [List.map_map]
    exact (hperm.map _).nodup_iff.2 hkeys
  have hentries := ofLines?_entries hnodup
  rwa [List.map_map, KeyMap.ofList_eq_of_perm hmap hnodup] at hentries

/-- A table in a line is read, if its values are. -/
theorem reads_braced (lines : Bool) {es : List (String × Toml)} (hkeys : (es.map Prod.fst).Nodup)
    (h : ∀ e ∈ es, Reads (write lines e.2).toList level (sorted e.2)) :
    Reads (write lines (.table es)).toList (level + 1) (sorted (.table es)) := by
  have hfront (text : List Char) : ∃ c cs, '\x7b' :: text = c :: cs ∧ IsFront c :=
    ⟨_, _, rfl, by decide, by decide, by decide, by decide, by decide⟩
  have hperm := ordered_perm es
  rw [toList_write_table lines hkeys, sorted, sortedEntries_eq_map]
  -- The table without entries has no blank between its braces.
  cases htext : ordered es with
  | nil =>
    obtain rfl : es = [] := (htext ▸ hperm).nil_eq.symm
    refine ⟨hfront _, fun fuel depth rest hfuel hlevel _ ↦ ?_⟩
    obtain ⟨fuel, rfl⟩ : ∃ k, fuel = k + 1 := ⟨fuel - 1, by simp at hfuel; omega⟩
    obtain ⟨depth, rfl⟩ : ∃ k, depth = k + 1 := ⟨depth - 1, by omega⟩
    rfl
  | cons e ws =>
    have hne : es ≠ [] := by
      rintro rfl
      exact List.cons_ne_nil e ws htext.symm
    have hws : ∀ w ∈ e :: ws, Reads (write lines w.2).toList level (sorted w.2) :=
      fun w hw ↦ h w (hperm.mem_iff.1 (htext ▸ hw))
    have hfirst := exists_entries_eq_cons e ws (fun e ↦ (write lines e.2).toList) Prod.fst
    rw [if_neg hne]
    refine ⟨hfront _, fun fuel depth rest hfuel hlevel _ ↦ ?_⟩
    simp only [List.length_cons, List.length_append] at hfuel
    obtain ⟨fuel, rfl⟩ : ∃ k, fuel = k + 1 := ⟨fuel - 1, by omega⟩
    obtain ⟨depth, rfl⟩ : ∃ k, depth = k + 1 := ⟨depth - 1, by omega⟩
    have hentries := @entries?_intercalate _ fuel _ _ _ _ Prod.fst _ _ hws
      (Nat.le_of_succ_le_succ hlevel) rest [] (.inl rfl) (by omega)
    obtain ⟨c, cs, heq, hblank, hclose⟩ := hfirst
    rw [List.nil_append, heq] at hentries
    simp only [List.cons_append, List.append_assoc, List.nil_append, heq]
    have hskip : skipBlank (' ' :: c :: (cs ++ ' ' :: '\x7d' :: rest)) =
        c :: (cs ++ ' ' :: '\x7d' :: rest) := by
      show skipBlank (c :: _) = _
      rw [skipBlank, List.dropWhile_cons, hblank]
      rfl
    rw [value?, hskip]
    split
    next heq => exact absurd (List.cons.inj heq).1 hclose
    next =>
      rw [← List.cons_append, hentries, ← htext]
      show (ofLines? _).bind _ = _
      rw [ofLines?_ordered hkeys]
      rfl

/-- Deeper nesting may be allowed than is needed. -/
theorem Reads.mono {text : List Char} {v : Toml} (h : Reads text level v) {level' : ℕ}
    (hle : level ≤ level') : Reads text level' v :=
  ⟨h.front, fun fuel depth rest hfuel hlevel ↦ h.read fuel depth rest hfuel (hle.trans hlevel)⟩

/-- **A value is read as it was written.** -/
theorem reads_write {v : Toml} (h : v.IsProper) (lines : Bool) :
    Reads (write lines v).toList (Toml.depth v) (sorted v) := by
  induction h with
  | @str s =>
    rw [sorted_str, write, Toml.depth]
    exact reads_string s
    all_goals simp
  | @int n h =>
    rw [sorted_int, write, Toml.depth]
    exact reads_scalar (isScalar_int h)
    all_goals simp
  | @float x h =>
    rw [sorted_float, write, Toml.depth]
    exact reads_scalar (isScalar_float h)
    all_goals simp
  | @bool b =>
    rw [sorted_bool, write, Toml.depth]
    exact reads_scalar (isScalar_bool b)
    all_goals simp
  | @datetime d h =>
    rw [sorted_datetime, write, Toml.depth]
    exact reads_scalar (isScalar_datetime h)
    all_goals simp
  | @array items _ ih =>
    rw [sorted, sortedItems_eq_map, write, writeItems_eq_map, Toml.depth]
    exact reads_bracketed lines fun v hv ↦ (ih v hv).mono (depth_le_depthItems hv)
  | @table entries hkeys _ ih =>
    rw [Toml.depth]
    exact reads_braced lines hkeys fun e he ↦ (ih e he).mono (depth_le_depthEntries he)

end Reader

end BslLint.Toml
