import BslLint.Fingerprint.Grouping
import BslLint.Proofs.Data.KeyMap
import BslLint.Proofs.Diagnostic.Order
import BslLint.Proofs.Fingerprint.Blocks
import BslLint.Proofs.Grammar.Files
import BslLint.Proofs.Rule.Locations
import BslLint.Proofs.Syntax.Reformatting
import Mathlib.Data.List.Induction

/-!
# Grouping by blocks loses and invents nothing

The blocks of a text divide its tokens, so whatever begins where a token does falls into a block,
and so does an error at the end of the text, which is noted where the last token has ended. What is
grouped is told without saying how: an entry for each block with diagnostics, in the order of the
blocks, and in it under each code the diagnostics of that code, in the order of their places
(`BlockFindings.Groups`). Only a text without any token may be without blocks, and it is listed as a
whole if something in it is unknown (`Document.grouping_loses_and_invents_nothing`).
-/

namespace BslLint

/-! ### Groups -/

namespace BlockFindings

/-- Under its code stands every diagnostic, and there is nothing else. -/
structure Groups (ds : List Diagnostic) (m : KeyMap (List Diagnostic)) : Prop where
  /-- The codes ascend strictly. -/
  ascending : m.Ascending
  /-- Under a code stand the diagnostics with that code, in the order of their places, if there are
  any. -/
  mem_iff : ∀ code es,
    (code, es) ∈ m ↔ es ≠ [] ∧ Diagnostic.IsStableSort (ds.filter (·.code = code)) es

/-- Diagnostics by their codes, each group as the diagnostics come. -/
def collected (ds : List Diagnostic) : KeyMap (List Diagnostic) :=
  ds.foldl (fun m d ↦ m.modify d.code [] (· ++ [d])) []

theorem collected_concat (ds : List Diagnostic) (d : Diagnostic) :
    collected (ds ++ [d]) = (collected ds).modify d.code [] (· ++ [d]) := List.foldl_concat ..

theorem collected_spec (ds : List Diagnostic) : (collected ds).Ascending ∧ ∀ code es,
    (code, es) ∈ collected ds ↔ es ≠ [] ∧ es = ds.filter (·.code = code) := by
  induction ds using List.reverseRecOn with
  | nil => exact ⟨.nil, fun code es ↦ ⟨nofun, fun h ↦ absurd h.2 h.1⟩⟩
  | append_singleton ds d ih =>
    obtain ⟨hascending, hmem⟩ := ih
    have hfind : ((collected ds).find? d.code).getD [] = ds.filter (·.code = d.code) := by
      cases hfind : (collected ds).find? d.code with
      | some es => exact ((hmem _ _).1 (hascending.find?_eq_some_iff.1 hfind)).2
      | none =>
        by_contra hne
        have hsome := hascending.find?_eq_some_iff.2 ((hmem d.code _).2 ⟨Ne.symm hne, rfl⟩)
        rw [hfind] at hsome
        exact nomatch hsome
    rw [collected_concat, KeyMap.modify, hfind]
    refine ⟨hascending.insert, fun code es ↦ ?_⟩
    rw [hascending.mem_insert_iff, hmem, List.filter_append]
    -- The group of the new diagnostic gets longer, and the others stay.
    by_cases hcode : d.code = code
    · subst hcode
      rw [List.filter_cons_of_pos (by simp), List.filter_nil]
      constructor
      · rintro (⟨-, rfl⟩ | ⟨hne, -⟩)
        · exact ⟨List.append_ne_nil_of_right_ne_nil _ (List.cons_ne_nil d []), rfl⟩
        · exact absurd rfl hne
      · exact fun h ↦ .inl ⟨rfl, h.2⟩
    · rw [List.filter_cons_of_neg (by simpa using hcode), List.filter_nil, List.append_nil]
      constructor
      · rintro (⟨rfl, -⟩ | ⟨-, h⟩)
        · exact absurd rfl hcode
        · exact h
      · exact fun h ↦ .inr ⟨Ne.symm hcode, h⟩

/-- **Diagnostics are grouped as they should be.** -/
theorem groups_group (ds : List Diagnostic) : Groups ds (group ds) := by
  obtain ⟨hascending, hmem⟩ := collected_spec ds
  refine ⟨List.pairwise_map.2 hascending, fun code es ↦ ?_⟩
  have hsorted (es : List Diagnostic) : Diagnostic.sorted es = [] ↔ es = [] := by
    rw [← List.length_eq_zero_iff, Diagnostic.sorted, List.length_mergeSort,
      List.length_eq_zero_iff]
  rw [Diagnostic.isStableSort_iff]
  constructor
  · intro h
    obtain ⟨⟨code', es'⟩, hes', heq⟩ := List.mem_map.1 h
    cases heq
    obtain ⟨hne, rfl⟩ := (hmem _ _).1 hes'
    exact ⟨mt (hsorted _).1 hne, rfl⟩
  · rintro ⟨hne, rfl⟩
    exact List.mem_map.2 ⟨_, (hmem _ _).2 ⟨mt (hsorted _).2 hne, rfl⟩, rfl⟩

end BlockFindings

/-! ### Entries -/

/-- The diagnostics that begin in the lines of a block and whose code is one of some codes; where no
codes are given, all codes count. -/
def Block.diagnosticsIn (b : Block) (codes : List String) (ds : List Diagnostic) :
    List Diagnostic :=
  ds.filter fun x ↦ (codes = [] ∨ x.code ∈ codes) ∧ b.firstLine ≤ x.line ∧ x.line ≤ b.lastLine

namespace BlockFindings

/-- An entry for a block with some diagnostics. -/
structure Lists (b : Block) (ds : List Diagnostic) (e : BlockFindings) : Prop where
  /-- It has the fingerprint of the block. -/
  hash_eq : e.hash = b.fingerprint
  /-- No hash of the text is given. -/
  fileHash_eq : e.fileHash = none
  /-- The diagnostics are grouped by their codes. -/
  groups : Groups ds e.byCode

theorem ofBlock?_counting (codes : List String) (ds : List Diagnostic) (b : Block) :
    ofBlock? (counting codes ds) b = if b.diagnosticsIn codes ds = [] then none
      else some ⟨b.fingerprint, group (b.diagnosticsIn codes ds), none⟩ := by
  have hinside : (counting codes ds).filter (fun d ↦ b.containsLine d.line) =
      b.diagnosticsIn codes ds := by
    rw [counting, List.filter_filter, Block.diagnosticsIn]
    refine List.filter_congr fun x _ ↦ ?_
    rw [Bool.eq_iff_iff]
    simp only [Block.containsLine, Bool.and_eq_true, Bool.or_eq_true, List.isEmpty_iff,
      List.contains_iff_mem, decide_eq_true_eq]
    exact and_comm
  rw [ofBlock?, hinside]
  simp only [List.isEmpty_iff]

/-- There is an entry for each block with diagnostics, and no other. -/
theorem forall₂_lists (codes : List String) (ds : List Diagnostic) (bs : List Block) :
    List.Forall₂ (fun b e ↦ Lists b (b.diagnosticsIn codes ds) e)
      (bs.filter fun b ↦ b.diagnosticsIn codes ds ≠ [])
      (bs.filterMap (ofBlock? (counting codes ds))) := by
  induction bs with
  | nil => exact .nil
  | cons b bs ih =>
    by_cases hnone : b.diagnosticsIn codes ds = []
    · rw [List.filter_cons_of_neg (by simpa using hnone),
        List.filterMap_cons_none (by rw [ofBlock?_counting, if_pos hnone])]
      exact ih
    · rw [List.filter_cons_of_pos (by simpa using hnone),
        List.filterMap_cons_some (by rw [ofBlock?_counting, if_neg hnone])]
      exact .cons ⟨rfl, rfl, groups_group _⟩ ih

/-- A fingerprint has forty digits, so it is not the reserved name. -/
theorem fingerprint_ne_unparsed (b : Block) : b.fingerprint ≠ unparsed := by
  have hlength : b.fingerprint.length = 40 := by
    rw [Block.fingerprint, Tree.fingerprint, Sha1.ofText, Sha1.ofBytes, String.length_ofList]
    rfl
  intro h
  rw [h] at hlength
  exact absurd hlength (by decide)

end BlockFindings

/-! ### Texts -/

namespace Document

variable {text : String}

/-- The text holds something unknown and no token. -/
def IsUnreadable (text : String) : Prop :=
  (Scan.ofText (Text.withoutMark text)).unknown ≠ [] ∧
    (Scan.ofText (Text.withoutMark text)).tokens = []

/-- Where there is no token, all errors are about unknown text. -/
theorem isUnreadable_iff : IsUnreadable text ↔
    (ofText text).blocks = [] ∧ (ofText text).errors ≠ [] := by
  rw [IsUnreadable, blocks_eq_nil_iff, and_comm, Ne, Ne, errors_eq_nil_iff]
  refine and_congr_right fun hnil ↦ ?_
  rw [hnil, Grammar.reads_file_nil.2.1]
  simp only [and_true]

/-- What is listed is what is found in the blocks, or the text as a whole. -/
theorem blockFindings_ofText (text : String) (ds : List Diagnostic) (codes : List String) :
    (IsUnreadable text → (ofText text).blockFindings ds codes =
      [⟨BlockFindings.unparsed, [], some (Sha1.ofText (ofText text).source)⟩]) ∧
    (¬IsUnreadable text → (ofText text).blockFindings ds codes =
      (ofText text).blocks.filterMap
        (BlockFindings.ofBlock? (BlockFindings.counting codes ds))) := by
  -- The text without any character takes a way of its own, on which there are no blocks either.
  have hempty : (ofText text).source.isEmpty = true →
      (Scan.ofText (Text.withoutMark text)).tokens = [] ∧
        (Scan.ofText (Text.withoutMark text)).unknown = [] := by
    intro h
    have hsource : Text.withoutMark text = "" := String.isEmpty_iff.1 h
    rw [hsource, Scan.ofText, String.toList_empty, lexemes]
    exact ⟨rfl, rfl⟩
  constructor
  · intro h
    obtain ⟨hblocks, herrors⟩ := isUnreadable_iff.1 h
    rw [blockFindings, if_neg fun hsource ↦ h.1 (hempty hsource).2, hblocks, if_pos]
    · rfl
    · simpa [hasErrors] using herrors
  · intro h
    rw [blockFindings]
    split
    next hsource => rw [blocks_eq_nil_iff.2 (hempty hsource).1, List.filterMap_nil]
    next =>
      rw [if_neg, List.append_nil]
      intro hboth
      refine h (isUnreadable_iff.2 ?_)
      simpa [hasErrors] using hboth

/-- An error is about a piece of unknown text, or it stands where a token begins, or where the last
token has ended. -/
theorem place_of_error {e : SyntaxError} (he : e ∈ (ofText text).errors) :
    (∃ u ∈ (Scan.ofText (Text.withoutMark text)).unknown, e = u.toError) ∨
    ∃ t ∈ (ofText text).tokens.toList,
      e.span.start.line = t.start.line ∨ e.span.start.line = t.stop.line := by
  rw [(regular_ofText text).tokens_eq]
  obtain ⟨ts, hts⟩ : ∃ ts, (Scan.ofText (Text.withoutMark text)).tokens = ts := ⟨_, rfl⟩
  have hmem : e ∈ (Scan.ofText (Text.withoutMark text)).unknown.map (·.toError) ++
      (Grammar.file ts).faults.map (·.toError (lastStop ts)) := hts ▸ List.mem_mergeSort.1 he
  rw [hts]
  rcases List.mem_append.1 hmem with hunknown | hfault
  · obtain ⟨u, hu, rfl⟩ := List.mem_map.1 hunknown
    exact .inl ⟨u, hu, rfl⟩
  obtain ⟨⟨wanted, found⟩, hmet, rfl⟩ := List.mem_map.1 hfault
  right
  cases found with
  | some t => exact ⟨t, Grammar.mem_of_found hmet rfl, .inl rfl⟩
  | none =>
    -- where there are no tokens no fault is met
    have hne : ts ≠ [] := by
      rintro rfl
      rw [Grammar.reads_file_nil.2.1] at hmet
      exact nomatch hmet
    refine ⟨ts.getLast hne, List.getLast_mem hne, .inr ?_⟩
    show (lastStop ts).line = _
    rw [lastStop, List.getLast?_eq_some_getLast hne]
    rfl

/-- **Everything that is found falls into a block**, but for what is unknown. -/
theorem exists_block_of_diagnostic {x : Diagnostic} (hx : x ∈ (ofText text).diagnostics) :
    (∃ u ∈ (Scan.ofText (Text.withoutMark text)).unknown,
      x = (ParseErrors.ofError u.toError).toDiagnostic ParseErrors.info.code
        ParseErrors.info.severity) ∨
    ∃ b ∈ (ofText text).blocks, b.firstLine ≤ x.line ∧ x.line ≤ b.lastLine := by
  have hordered : Token.Ordered (ofText text).tokens.toList :=
    (regular_ofText text).tokens_eq ▸ Scan.ordered_ofText _
  -- A block covers the lines of its tokens, so it is enough to find a token on the line.
  have hblock : ∀ t ∈ (ofText text).tokens.toList, x.line = t.start.line ∨ x.line = t.stop.line →
      ∃ b ∈ (ofText text).blocks, b.firstLine ≤ x.line ∧ x.line ≤ b.lastLine := by
    intro t ht hline
    obtain ⟨b, hb, hfirst, hlast⟩ := exists_block_of_token ht
    have hlines : t.start.line ≤ t.stop.line :=
      Position.line_le_of_key_le (hordered.width t ht).le
    exact ⟨b, hb, by omega, by omega⟩
  have hfilled : ∀ n ∈ (ofText text).nodes, Grammar.Filled n.tree := by
    intro n hn
    obtain ⟨t, ht, hwithin⟩ := Node.within_of_mem_nodes hn
    exact Grammar.everywhere_filled _ t ht n.tree hwithin
  -- What is found begins at a token, or is an error, and an error of the grammar stands at a token
  -- too.
  rcases error_or_begins_at_token (regular_ofText text).nodes_eq hfilled x hx with
    ⟨e, he, hxe⟩ | ⟨t, ht, hstart⟩
  · rcases place_of_error he with ⟨u, hu, rfl⟩ | ⟨t, ht, hline⟩
    · exact .inl ⟨u, hu, hxe⟩
    · right
      subst hxe
      exact hblock t ht hline
  · exact .inr (hblock t ht (.inl (congrArg Position.line hstart)))

/-- **Grouping by blocks loses and invents nothing.** The blocks of a text divide its tokens. For
all diagnostics and codes there is an entry for each block with some of them, with all of them, and
no other entry, but that an unreadable text is listed as a whole. Whatever the rules find in the
text is in the lines of a block, unless it is about something unknown. -/
theorem grouping_loses_and_invents_nothing (text : String) :
    (TokenRange.Tiled ⟨0, (ofText text).tokens.size⟩ ((ofText text).blocks.map (·.node.range)) ∧
      ∀ b ∈ (ofText text).blocks, b.node.range.isEmpty = false) ∧
    (∀ ds codes,
      ((∃ e ∈ (ofText text).blockFindings ds codes, e.hash = BlockFindings.unparsed) ↔
        IsUnreadable text) ∧
      (IsUnreadable text → (ofText text).blockFindings ds codes =
        [⟨BlockFindings.unparsed, [], some (Sha1.ofText (ofText text).source)⟩]) ∧
      (¬IsUnreadable text →
        List.Forall₂ (fun b e ↦ BlockFindings.Lists b (b.diagnosticsIn codes ds) e)
          ((ofText text).blocks.filter fun b ↦ b.diagnosticsIn codes ds ≠ [])
          ((ofText text).blockFindings ds codes))) ∧
    ∀ x ∈ (ofText text).diagnostics,
      (∃ u ∈ (Scan.ofText (Text.withoutMark text)).unknown,
        x = (ParseErrors.ofError u.toError).toDiagnostic ParseErrors.info.code
          ParseErrors.info.severity) ∨
      ∃ b ∈ (ofText text).blocks, b.firstLine ≤ x.line ∧ x.line ≤ b.lastLine := by
  refine ⟨⟨tiled_blocks text, fun b ↦ isEmpty_range_of_block⟩, fun ds codes ↦ ?_,
    fun x ↦ exists_block_of_diagnostic⟩
  obtain ⟨hunreadable, hreadable⟩ := blockFindings_ofText text ds codes
  refine ⟨⟨fun ⟨e, he, hhash⟩ ↦ ?_, fun h ↦ ?_⟩, hunreadable, fun h ↦ ?_⟩
  · by_contra h
    rw [hreadable h] at he
    obtain ⟨b, -, hb⟩ := List.mem_filterMap.1 he
    rw [BlockFindings.ofBlock?_counting] at hb
    split at hb
    · exact nomatch hb
    · obtain rfl := Option.some.inj hb
      exact BlockFindings.fingerprint_ne_unparsed b hhash
  · rw [hunreadable h]
    exact ⟨_, List.mem_singleton_self _, rfl⟩
  · rw [hreadable h]
    exact BlockFindings.forall₂_lists codes ds _

/-- A text with a single unknown character is listed as a whole. In an assignment without a value
the error at the end of the text is found in the block of the code, and the block has an entry. -/
theorem unknown_character_and_missing_value_grouped :
    (∀ ds codes, ((ofText "$").blockFindings ds codes).map (·.hash) = [BlockFindings.unparsed]) ∧
    ∃ x ∈ (ofText "Х=").diagnostics, ∃ b ∈ (ofText "Х=").blocks,
      (b.firstLine ≤ x.line ∧ x.line ≤ b.lastLine) ∧
      ∃ e ∈ (ofText "Х=").blockFindings [x] [], BlockFindings.Lists b [x] e := by
  -- Only what can be computed about the two texts is computed; the rest is the theorem.
  have hunknown : IsUnreadable "$" := by
    rw [IsUnreadable, Scan.ofText_eq_evaluated]
    decide +kernel
  have hreadable : ¬IsUnreadable "Х=" := by
    rw [IsUnreadable, Scan.ofText_eq_evaluated]
    decide +kernel
  refine ⟨fun ds codes ↦ ?_, ?_⟩
  · rw [((grouping_loses_and_invents_nothing "$").2.1 ds codes).2.1 hunknown]
    rfl
  · have hne : (ofText "Х=").diagnostics ≠ [] := by
      rw [ofText_eq_evaluated]
      decide +kernel
    have hknown : (Scan.ofText (Text.withoutMark "Х=")).unknown = [] := by
      rw [Scan.ofText_eq_evaluated]
      decide +kernel
    obtain ⟨x, hx⟩ := List.exists_mem_of_ne_nil (ofText "Х=").diagnostics hne
    obtain ⟨-, hentries, hblocks⟩ := grouping_loses_and_invents_nothing "Х="
    obtain ⟨b, hb, hlines⟩ := (hblocks x hx).resolve_left (by
      rw [hknown]
      exact nofun)
    have hin : b.diagnosticsIn [] [x] = [x] := List.filter_cons_of_pos (by simpa using hlines)
    have hlists := (hentries [x] []).2.2 hreadable
    -- The block has something found in it, so it is one of those that have an entry.
    have hcounts : b ∈ (ofText "Х=").blocks.filter fun b ↦ b.diagnosticsIn [] [x] ≠ [] :=
      List.mem_filter.2 ⟨hb, by simp [hin]⟩
    obtain ⟨⟨i, hi⟩, hget⟩ := List.get_of_mem hcounts
    have he := hlists.get hi (hlists.length_eq ▸ hi)
    rw [hget, hin] at he
    exact ⟨x, hx, b, hb, hlines, _, List.get_mem _ _, he⟩

end Document

end BslLint
