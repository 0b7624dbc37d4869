import BslLint.Proofs.Data.Toml.Parts

/-!
# Documents are read as they were written

The pieces of a document are put together one after the other. Below the heading of a table they do
in this table what they would do in a document of their own (`Draft.foldlM_under`), whether the
heading was written or only headings below it. So, by induction on the depth, the pieces of a table
make it up (`exists_makes`), and **a document is read as the table that was written**
(`read?_document`).
-/

namespace BslLint.Toml

/-! ### Tables while they are read -/

namespace Item

variable {k : String} {root before es : Entries}

/-- Changes the table at the end of a path. -/
def change (path : List String) (f : Entries → Option Entries) : Entries → Option Entries :=
  update false (fun _ ↦ f) path false

theorem update_eq_change (path : List String) (f : Entries → Option Entries) (dotted : Bool)
    (root : Entries) : update false (fun _ ↦ f) path dotted root = change path f root := by
  cases path <;> rfl

/-- A change further down is a change of what is under the first key. -/
theorem change_cons (k : String) (path : List String) (f : Entries → Option Entries)
    (root : Entries) : change (k :: path) f root = change [k] (change path f) root := by
  rw [change, change, update, update]
  cases find? root k with
  | none => rfl
  | some item =>
    cases item with
    | table mentioned dotted es => simp only [update_eq_change path]; rfl
    | _ => rfl

/-- What was put last is found, -/
theorem find?_append_self (h : k ∉ before.map Prod.fst) (item : Item) :
    find? (before ++ [(k, item)]) k = some item := by
  have hnone : List.find? (·.1 == k) before = none := by
    rw [List.find?_eq_none]
    exact fun e he heq ↦ h (List.mem_map.2 ⟨e, he, eq_of_beq heq⟩)
  simp [find?, List.find?_append, hnone]

/-- and it can be replaced. -/
theorem replace_append_self (h : k ∉ before.map Prod.fst) (item item' : Item) :
    replace (before ++ [(k, item)]) k item' = before ++ [(k, item')] := by
  have hbefore : before.map (fun e ↦ if e.1 == k then (k, item') else e) = before.map id := by
    refine List.map_congr_left fun e he ↦ if_neg fun heq ↦ h ?_
    exact List.mem_map.2 ⟨e, he, eq_of_beq heq⟩
  rw [replace, List.map_append, hbefore, List.map_id]
  simp

/-- Under a new key there is an empty table to change. -/
theorem change_of_fresh (h : k ∉ root.map Prod.fst) (f : Entries → Option Entries) :
    change [k] f root = (f []).map fun es ↦ root ++ [(k, table true false es)] := by
  have hfind : find? root k = none := KeyMap.find?_eq_none h
  rw [change, update, hfind, Option.map_eq_bind]
  rfl

/-- The table under the last key is changed in its place. -/
theorem change_table (h : k ∉ before.map Prod.fst) (mentioned dotted : Bool)
    (f : Entries → Option Entries) (es : Entries) :
    change [k] f (before ++ [(k, table mentioned dotted es)]) =
      (f es).map fun es ↦ before ++ [(k, table mentioned dotted es)] := by
  rw [change, update, find?_append_self h]
  simp only [replace_append_self h, Option.map_eq_bind]
  rfl

/-- In a row of tables it is the last one. -/
theorem change_rows (h : k ∉ before.map Prod.fst) (done : List Entries)
    (f : Entries → Option Entries) (es : Entries) :
    change [k] f (before ++ [(k, rows (done ++ [es]))]) =
      (f es).map fun es ↦ before ++ [(k, rows (done ++ [es]))] := by
  rw [change, update, find?_append_self h]
  simp only [replace_append_self h, List.getLast?_concat, List.dropLast_concat, Option.map_eq_bind]
  rfl

end Item

namespace Draft

open Item

variable {k : String} {root es : Item.Entries} {C : Item.Entries → Item.Entries}

/-- A piece below a key goes into the table that is there. -/
theorem add_under (h : ∀ f, change [k] f root = (f es).map C) (current : List String) (l : Line) :
    add ⟨root, k :: current⟩ (l.under [k]) =
      (add ⟨es, current⟩ l).map fun d ↦ ⟨C d.root, k :: d.current⟩ := by
  have hchange (path : List String) (f : Entries → Option Entries) :
      update false (fun _ ↦ f) (k :: path) false root =
        (update false (fun _ ↦ f) path false es).map C := by
    rw [update_eq_change, change_cons, h]
    rfl
  cases l <;> simp only [Line.under, add, List.singleton_append, hchange] <;>
    rw [Option.bind_eq_bind, Option.bind_map, Option.map_bind] <;> rfl

/-- So do several of them. -/
theorem foldlM_under (h : ∀ f es, change [k] f (C es) = (f es).map C) (es : Entries)
    (current : List String) (ls : List Line) :
    (ls.map (.under [k])).foldlM add ⟨C es, k :: current⟩ =
      (ls.foldlM add ⟨es, current⟩).map fun d ↦ ⟨C d.root, k :: d.current⟩ := by
  induction ls generalizing es current with
  | nil => rfl
  | cons l ls ih =>
    rw [List.map_cons, List.foldlM_cons, List.foldlM_cons, add_under fun f ↦ h f es,
      Option.bind_eq_bind, Option.bind_map, Option.map_bind]
    congr 1
    funext d
    exact ih d.root d.current

end Draft

/-! ### What the pieces make up -/

namespace Item

theorem toTomlEntries_eq_map (es : Entries) :
    toTomlEntries es = es.map fun e ↦ (e.1, toToml e.2) := by
  induction es with
  | nil => rw [toTomlEntries, List.map_nil]
  | cons e es ih => rw [toTomlEntries, ih, List.map_cons]

/-- A table with a row of tables under a key, if there is any of them yet. -/
def withRows (before : Entries) (k : String) : List Entries → Entries
  | [] => before
  | done => before ++ [(k, rows done)]

theorem withRows_concat (before : Entries) (k : String) (done : List Entries) (es : Entries) :
    withRows before k (done ++ [es]) = before ++ [(k, rows (done ++ [es]))] := by
  cases done <;> rfl

/-- Each heading for a row puts an empty table behind those that are done. -/
theorem openRow_withRows {before : Entries} {k : String} (h : k ∉ before.map Prod.fst)
    (done : List Entries) :
    openRow k (withRows before k done) = some (withRows before k (done ++ [[]])) := by
  cases done with
  | nil =>
    have hfind : find? before k = none := KeyMap.find?_eq_none h
    rw [withRows, openRow, hfind]
    rfl
  | cons es done =>
    rw [withRows, openRow, find?_append_self h, withRows_concat]
    exact congrArg some (replace_append_self h _ _)
    exact List.cons_ne_nil _ _

end Item

/-- Whether a piece is a heading, for which it does not matter what was added to before. -/
def Line.isHeading : Line → Bool
  | entry .. => false
  | _ => true

/-- Some pieces that begin with a heading turn one document into another. -/
structure Leads (ls : List Line) (root root' : Item.Entries) : Prop where
  start : ∀ l ∈ ls.head?, l.isHeading = true
  run : ∀ current, ∃ current', ls.foldlM Draft.add ⟨root, current⟩ = some ⟨root', current'⟩

section

variable {k : String} {root root' root'' before es : Item.Entries}
  {C : Item.Entries → Item.Entries} {l : Line} {ls ls' : List Line} {current current' : List String}

theorem Leads.nil : Leads [] root root :=
  ⟨nofun, fun current ↦ ⟨current, rfl⟩⟩

theorem Leads.eq_of_nil (h : Leads [] root root') : root = root' := by
  obtain ⟨current', hrun⟩ := h.run []
  exact congrArg Draft.root (Option.some.inj hrun)

/-- Stretches that begin with headings follow each other. -/
theorem Leads.append (h : Leads ls root root') (h' : Leads ls' root' root'') :
    Leads (ls ++ ls') root root'' := by
  refine ⟨fun l hl ↦ ?_, fun current ↦ ?_⟩
  · rw [List.head?_append, Option.mem_def, Option.or_eq_some_iff] at hl
    obtain hl | ⟨-, hl⟩ := hl
    · exact h.start l hl
    · exact h'.start l hl
  · obtain ⟨current₁, hrun⟩ := h.run current
    obtain ⟨current₂, hrun'⟩ := h'.run current₁
    refine ⟨current₂, ?_⟩
    rw [List.foldlM_append, hrun]
    exact hrun'

theorem Line.isHeading_under (path : List String) (l : Line) :
    (l.under path).isHeading = l.isHeading := by
  cases l <;> rfl

/-- A heading does not depend on what was added to before it. -/
theorem Draft.add_of_isHeading (h : l.isHeading = true) (root : Item.Entries)
    (current current' : List String) : add ⟨root, current⟩ l = add ⟨root, current'⟩ l := by
  cases l with
  | entry => exact nomatch h
  | _ => rfl

/-- A heading and what follows it below the key that it opens. -/
theorem leads_of_heading (hC : ∀ f es, Item.change [k] f (C es) = (f es).map C)
    (hhead : l.isHeading = true) (hopen : Draft.add ⟨root, []⟩ l = some ⟨C [], [k]⟩)
    (h : ls.foldlM Draft.add {} = some ⟨es, current⟩) :
    Leads (l :: ls.map (Line.under [k])) root (C es) := by
  refine ⟨fun l' hl' ↦ Option.some.inj hl' ▸ hhead, fun current' ↦ ⟨k :: current, ?_⟩⟩
  rw [List.foldlM_cons, Draft.add_of_isHeading hhead root current' [], hopen]
  show (ls.map (Line.under [k])).foldlM Draft.add ⟨C [], k :: []⟩ = _
  rw [Draft.foldlM_under hC, h]
  rfl

/-- Without a heading, a key is opened by the headings below it. -/
theorem Leads.under (hopen : ∀ f, Item.change [k] f root = (f []).map C)
    (hC : ∀ f es, Item.change [k] f (C es) = (f es).map C) (h : Leads ls [] es) (hne : ls ≠ []) :
    Leads (ls.map (Line.under [k])) root (C es) := by
  obtain ⟨l, ls, rfl⟩ := List.exists_cons_of_ne_nil hne
  have hhead : (l.under [k]).isHeading = true := by
    rw [Line.isHeading_under]
    exact h.start l rfl
  obtain ⟨current', hrun⟩ := h.run []
  rw [List.foldlM_cons] at hrun
  obtain ⟨d, hl, hls⟩ := Option.bind_eq_some_iff.1 hrun
  refine ⟨fun l' hl' ↦ Option.some.inj hl' ▸ hhead, fun current ↦ ⟨k :: current', ?_⟩⟩
  rw [List.map_cons, List.foldlM_cons, Draft.add_of_isHeading hhead root current [k],
    Draft.add_under hopen, hl]
  show (ls.map (Line.under [k])).foldlM Draft.add ⟨C d.root, k :: d.current⟩ = _
  rw [Draft.foldlM_under hC, hls]
  rfl

end

/-- The pieces of a table make it up. -/
structure Makes (ls : List Line) (es : List (String × Toml)) (inner : Item.Entries) : Prop where
  run : ∃ current, ls.foldlM Draft.add {} = some ⟨inner, current⟩
  perm : (Item.toTomlEntries inner).Perm (sortedEntries es)
  leads : entryLines es = [] → Leads ls [] inner

/-- What is made is the table with its entries in order. -/
theorem Makes.toToml_eq {ls : List Line} {es : List (String × Toml)} {inner : Item.Entries}
    (h : Makes ls es inner) (hkeys : (es.map Prod.fst).Nodup) (mentioned dotted : Bool) :
    (Item.table mentioned dotted inner).toToml = sorted (.table es) := by
  have hsorted : ((sortedEntries es).map Prod.fst).Nodup := by
    rw [sortedEntries_eq_map, List.map_map]
    exact hkeys
  rw [Item.toToml, sorted,
    KeyMap.ofList_eq_of_perm h.perm ((h.perm.map Prod.fst).nodup_iff.2 hsorted)]

section

variable {k : String} {root : Item.Entries} {lines : List (String × Toml) → List Line}

/-- A table in an entry is made up. -/
theorem exists_table {es : List (String × Toml)} {inner : Item.Entries}
    (hfresh : k ∉ root.map Prod.fst) (hkeys : (es.map Prod.fst).Nodup)
    (h : Makes (lines es) es inner) :
    ∃ item, Leads (ownLines k es ++ (lines es).map (Line.under [k])) root (root ++ [(k, item)]) ∧
      item.toToml = sorted (.table es) := by
  rw [ownLines]
  split
  -- A table that holds nothing but tables has no heading of its own; those below make it up.
  next hown =>
    obtain ⟨hvalues, hne⟩ := Bool.and_eq_true_iff.1 hown
    have hleads := h.leads (entryLines_eq_nil hvalues)
    refine ⟨.table true false inner, ?_, h.toToml_eq hkeys _ _⟩
    refine hleads.under (C := fun es ↦ root ++ [(k, .table true false es)])
      (Item.change_of_fresh hfresh) (fun f es ↦ Item.change_table hfresh _ _ f es) fun hnil ↦ ?_
    rw [hnil] at hleads
    have hperm := h.perm
    rw [← hleads.eq_of_nil, Item.toTomlEntries, sortedEntries_eq_map] at hperm
    have hes := List.map_eq_nil_iff.1 hperm.nil_eq.symm
    rw [hes] at hne
    exact Bool.false_ne_true hne
  -- Its own heading opens the table, and the lines behind it fill it.
  next =>
    obtain ⟨current, hrun⟩ := h.run
    refine ⟨.table false false inner, ?_, h.toToml_eq hkeys _ _⟩
    refine leads_of_heading (l := .heading [] k)
      (C := fun es ↦ root ++ [(k, .table false false es)])
      (fun f es ↦ Item.change_table hfresh _ _ f es) rfl ?_ hrun
    have hfind : Item.find? root k = none := KeyMap.find?_eq_none hfresh
    show (Item.openTable k root).bind _ = _
    rw [Item.openTable, hfind]
    rfl

/-- A row of tables is made up. -/
theorem exists_rows {tables : List (List (String × Toml))} (hfresh : k ∉ root.map Prod.fst)
    (hkeys : ∀ es ∈ tables, (es.map Prod.fst).Nodup)
    (h : ∀ es ∈ tables, ∃ inner, Makes (lines es) es inner) (done : List Item.Entries) :
    ∃ inners, Leads (tables.flatMap fun es ↦ .rowHeading [] k :: (lines es).map (Line.under [k]))
        (Item.withRows root k done) (Item.withRows root k (done ++ inners)) ∧
      Item.toTomlTables inners = tables.map fun es ↦ sorted (.table es) := by
  -- The induction is on the tables that are left, while those that are done stand in the row.
  induction tables generalizing done with
  | nil => exact ⟨[], by rw [List.append_nil]; exact .nil, by rw [Item.toTomlTables]; rfl⟩
  | cons es tables ih =>
    obtain ⟨hes, htables⟩ := List.forall_mem_cons.1 hkeys
    obtain ⟨⟨inner, hinner⟩, hrest⟩ := List.forall_mem_cons.1 h
    obtain ⟨inners, hleads, htoml⟩ := ih htables hrest (done ++ [inner])
    obtain ⟨current, hrun⟩ := hinner.run
    have hopen := Item.openRow_withRows hfresh done
    have hrow : Leads (.rowHeading [] k :: (lines es).map (Line.under [k]))
        (Item.withRows root k done) (Item.withRows root k (done ++ [inner])) := by
      refine leads_of_heading (C := fun es ↦ Item.withRows root k (done ++ [es])) ?_ rfl ?_ hrun
      · intro f es
        simp only [Item.withRows_concat]
        exact Item.change_rows hfresh done f es
      · show (Item.openRow k (Item.withRows root k done)).bind _ = _
        rw [hopen]
        rfl
    refine ⟨inner :: inners, ?_, ?_⟩
    · rw [List.flatMap_cons]
      refine hrow.append ?_
      rwa [List.append_assoc] at hleads
    · rw [Item.toTomlTables, htoml, List.map_cons, ← hinner.toToml_eq hes false false, Item.toToml]

end

/-- The entries without headings, as they are made. -/
def values (es : List (String × Toml)) : Item.Entries :=
  (es.filter fun e ↦ !hasHeading e.2).map fun e ↦ (e.1, .value (sorted e.2))

/-- The entries without headings come first, and are made one by one. -/
theorem foldlM_entryLines {es : List (String × Toml)} (hkeys : (es.map Prod.fst).Nodup) :
    (entryLines es).foldlM Draft.add {} = some ⟨values es, []⟩ := by
  have hnodup : (((es.filter fun e ↦ !hasHeading e.2).map fun e ↦ (e.1, sorted e.2)).map
      Prod.fst).Nodup := by
    rw [List.map_map]
    exact hkeys.sublist (List.filter_sublist.map _)
  have hentries := @foldlM_entries _ [] hnodup
  rw [List.map_map, List.map_map] at hentries
  exact hentries

/-- The entries with headings are made one after the other. -/
theorem exists_items {d : ℕ} {ws : List (String × Toml)} {root : Item.Entries}
    (hkeys : (ws.map Prod.fst).Nodup)
    (hfresh : ∀ e ∈ ws, hasHeading e.2 = true → e.1 ∉ root.map Prod.fst)
    (h : ∀ e ∈ ws, hasHeading e.2 = true → ∀ root : Item.Entries, e.1 ∉ root.map Prod.fst →
      ∃ item, Leads (headedLines (pieces d) e) root (root ++ [(e.1, item)]) ∧
        item.toToml = sorted e.2) :
    ∃ items, Leads (ws.flatMap (headedLines (pieces d))) root (root ++ items) ∧
      Item.toTomlEntries items =
        sortedEntries (ws.filter fun e ↦ hasHeading e.2) := by
  induction ws generalizing root with
  | nil =>
    exact ⟨[], by rw [List.append_nil]; exact .nil,
      by rw [List.filter_nil, sortedEntries, Item.toTomlEntries]⟩
  | cons e ws ih =>
    obtain ⟨k, v⟩ := e
    obtain ⟨hk, hws⟩ := List.nodup_cons.1 hkeys
    obtain ⟨hfirst, hrest⟩ := List.forall_mem_cons.1 hfresh
    obtain ⟨hv, hvs⟩ := List.forall_mem_cons.1 h
    rw [List.flatMap_cons]
    cases hheading : hasHeading v with
    | false =>
      obtain ⟨items, hleads, htoml⟩ := ih hws hrest hvs
      refine ⟨items, ?_, ?_⟩
      · obtain ⟨-, -, h, -⟩ | ⟨-, -, -, -, h, -⟩ | ⟨-, -, -, hlines⟩ :=
          headedLines_cases (pieces d) k v
        · exact absurd h (by rw [hheading]; exact Bool.false_ne_true)
        · exact absurd h (by rw [hheading]; exact Bool.false_ne_true)
        · rw [hlines]
          exact hleads
      · rw [htoml, List.filter_cons_of_neg (by rw [hheading]; exact Bool.false_ne_true)]
    | true =>
      -- The name stands for itself at once, so those that follow must not have it.
      obtain ⟨item, hitem, hsorted⟩ := hv hheading root (hfirst hheading)
      have hfresh' : ∀ e ∈ ws, hasHeading e.2 = true →
          e.1 ∉ (root ++ [(k, item)]).map Prod.fst := by
        intro e he hheaded
        rw [List.map_append, List.mem_append, not_or]
        refine ⟨hrest e he hheaded, fun hmem ↦ hk ?_⟩
        rw [← List.mem_singleton.1 hmem]
        exact List.mem_map_of_mem he
      obtain ⟨items, hleads, htoml⟩ := ih hws hfresh' hvs
      refine ⟨(k, item) :: items, ?_, ?_⟩
      · rw [← List.append_cons] at hleads
        exact hitem.append hleads
      · rw [List.filter_cons, if_pos hheading, Item.toTomlEntries, sortedEntries, htoml, hsorted]

/-- As values they are what they were written for. -/
theorem toTomlEntries_values_eq (es : List (String × Toml)) :
    Item.toTomlEntries (values es) = sortedEntries (es.filter fun e ↦ !hasHeading e.2) := by
  rw [values, Item.toTomlEntries_eq_map, List.map_map, sortedEntries_eq_map]
  exact List.map_congr_left fun e _ ↦ by rw [Function.comp_apply, Item.toToml]

/-- An entry with a heading is not among those without. -/
theorem not_mem_values {es : List (String × Toml)} (hkeys : (es.map Prod.fst).Nodup)
    {e : String × Toml} (he : e ∈ es) (hheading : hasHeading e.2 = true) :
    e.1 ∉ (values es).map Prod.fst := by
  rw [values, List.map_map]
  intro hmem
  obtain ⟨w, hw, hkey⟩ := List.mem_map.1 hmem
  obtain ⟨hw, hnot⟩ := List.mem_filter.1 hw
  rw [List.inj_on_of_nodup_map hkeys hw he hkey, hheading] at hnot
  exact nomatch hnot

/-- The pieces of a table make it up, if those of the entries with headings do. -/
theorem makes_pieces {d : ℕ} {es : List (String × Toml)} {items : Item.Entries}
    (hkeys : (es.map Prod.fst).Nodup)
    (hleads : Leads ((ordered es).flatMap (headedLines (pieces d))) (values es)
      (values es ++ items))
    (hitems : Item.toTomlEntries items =
      sortedEntries ((ordered es).filter fun e ↦ hasHeading e.2)) :
    Makes (pieces (d + 1) es) es (values es ++ items) := by
  refine ⟨?_, ?_, fun hnil ↦ ?_⟩
  · obtain ⟨current, hrun⟩ := hleads.run []
    refine ⟨current, ?_⟩
    rw [pieces, List.foldlM_append, foldlM_entryLines hkeys]
    exact hrun
  · -- Values come before tables in the text, so the entries are only permuted.
    have hperm := (ordered_perm es).filter fun e ↦ hasHeading e.2
    rw [Item.toTomlEntries_eq_map, List.map_append, ← Item.toTomlEntries_eq_map,
      ← Item.toTomlEntries_eq_map, toTomlEntries_values_eq, hitems]
    simp only [sortedEntries_eq_map]
    rw [← List.map_append]
    exact ((hperm.append_left _).trans
      (List.perm_append_comm.trans (List.filter_append_perm _ es))).map _
  · have hvalues : values es = [] := by
      rw [entryLines, List.map_eq_nil_iff] at hnil
      rw [values, hnil, List.map_nil]
    rw [hvalues] at hleads ⊢
    rw [pieces, hnil]
    exact hleads

/-- **The pieces of a table make it up.** -/
theorem exists_makes {path : List String} {d : ℕ} {es : List (String × Toml)} (h : Fits path d es) :
    ∃ inner, Makes (pieces d es) es inner := by
  induction d generalizing path es with
  | zero =>
    obtain ⟨d, hd⟩ := h.exists_succ
    exact nomatch hd
  | succ d ih =>
    have hperm := ordered_perm es
    -- Each entry with headings is made up by its own lines, whatever was made up before.
    have hitem : ∀ e ∈ ordered es, hasHeading e.2 = true → ∀ root : Item.Entries,
        e.1 ∉ root.map Prod.fst → ∃ item, Leads (headedLines (pieces d) e) root
          (root ++ [(e.1, item)]) ∧ item.toToml = sorted e.2 := by
      rintro ⟨k, v⟩ he hheading root hfresh
      have hmem := hperm.mem_iff.1 he
      obtain ⟨inner, rfl, -, hlines⟩ | ⟨rows, rfl, hne, -, -, hlines⟩ | ⟨-, -, hnot, -⟩ :=
        headedLines_cases (pieces d) k v
      · have hfits := h.table hmem
        obtain ⟨made, hmade⟩ := ih hfits
        rw [hlines]
        exact exists_table hfresh hfits.nodup hmade
      · have hfits : ∀ inner ∈ rows, Fits (path ++ [k]) d inner := fun inner ↦ h.row hmem
        obtain ⟨made, hmade, htoml⟩ := exists_rows hfresh
          (fun inner hinner ↦ (hfits inner hinner).nodup)
          (fun inner hinner ↦ ih (hfits inner hinner)) []
        -- A row of tables that is not empty has a first one, which opens it.
        have hmadene : made ≠ [] := by
          rintro rfl
          rw [Item.toTomlTables] at htoml
          exact hne (List.map_eq_nil_iff.1 htoml.symm)
        obtain ⟨first, rest, rfl⟩ := List.exists_cons_of_ne_nil hmadene
        rw [hlines]
        refine ⟨.rows (first :: rest), hmade, ?_⟩
        rw [Item.toToml, htoml, sorted, sortedItems_eq_map, List.map_map]
        rfl
      · exact absurd hheading (by rw [hnot]; exact Bool.false_ne_true)
    obtain ⟨items, hleads, hitems⟩ := exists_items ((hperm.map _).nodup_iff.2 h.nodup)
      (fun e he ↦ not_mem_values h.nodup (hperm.mem_iff.1 he)) hitem
    exact ⟨values es ++ items, makes_pieces h.nodup hleads hitems⟩

/-- **A document is read as the table that was written**, its entries in the order of their keys,
unless the table is too deep. -/
theorem read?_document {es : List (String × Toml)} (h : (Toml.table es).IsProper)
    (hdepth : depth (.table es) ≤ Reader.maxDepth + 1) :
    read? (document es) = some (sorted (.table es)) := by
  have hfits : Fits [] (depth (.table es) + 1) es :=
    ⟨h, Nat.le_succ _, by rw [List.length_nil, Nat.zero_add]; exact hdepth⟩
  obtain ⟨inner, hmakes⟩ := exists_makes hfits
  obtain ⟨current, hrun⟩ := hmakes.run
  rw [read?_document_eq hfits, ofLines?, hrun, ← hmakes.toToml_eq hfits.nodup false false]
  rfl

end BslLint.Toml
