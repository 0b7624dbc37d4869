import BslLint.Proofs.Grammar.Coverage
import BslLint.Proofs.Grammar.Derivation
import BslLint.Proofs.Syntax.Standing

/-!
# The terminals of a document

The terminals of an expression are told by the texts of their ranges. In a document that was cut out
of its text without a remainder (`Document.IsCut`), **the text of a terminal can be put anywhere in
front of a delimiter** and is cut into the same tokens again. For a name this is one token
(`Document.IsWord`), for a constant one token or several strings with trivia between them
(`Document.IsLiteral`).
-/

namespace BslLint

namespace Document

/-- The tokens are those that the text is cut into, and only trivia lies between them. -/
structure IsCut (d : Document) : Prop where
  /-- The tokens are those of the text. -/
  toList_tokens_eq : d.tokens.toList = (Scan.ofText d.source).tokens
  /-- Nothing in the text is unknown. -/
  unknown_eq : (Scan.ofText d.source).unknown = []

/-- The text of the range is a single token of the kind, wherever a delimiter comes behind. -/
structure IsWord (d : Document) (r : TokenRange) (k : Token.Kind) : Prop where
  /-- The text is cut into one token. -/
  cuts : Cuts (d.rangeText r).toList [⟨.token k, (d.rangeText r).toList⟩]
  /-- The text is that of the only token in the range. -/
  tokenTexts_eq : d.tokenTexts r = [d.rangeText r]

/-- The kinds and texts of the tokens that a text is cut into. -/
def signs (text : List Char) : List (Token.Kind × String) :=
  (lexemes text).filterMap Lexeme.sign?

/-- The text of the range is a constant, wherever a delimiter comes behind. -/
structure IsLiteral (d : Document) (r : TokenRange) : Prop where
  /-- The text is cut in the same way in front of every delimiter. -/
  cuts : Cuts (d.rangeText r).toList (lexemes (d.rangeText r).toList)
  /-- The text begins and ends with a token. -/
  framed : Framed (lexemes (d.rangeText r).toList)
  /-- Nothing in the text is unknown. -/
  known : ∀ l ∈ lexemes (d.rangeText r).toList, l.kind ≠ .unknown
  /-- The tokens of the range are those that its text is cut into. -/
  tokenTexts_eq : d.tokenTexts r = (signs (d.rangeText r).toList).map (·.2)
  /-- The tokens are a constant, or strings. -/
  kinds : (∃ k ∈ Grammar.constantKinds, (signs (d.rangeText r).toList).map (·.1) = [k]) ∨
    ∀ s ∈ signs (d.rangeText r).toList, s.1 = .stringLiteral

/-- A text without errors is cut without a remainder. -/
theorem isCut_ofText {text : String} (h : (ofText text).errors = []) : (ofText text).IsCut :=
  ⟨(Document.toList_tokens _).trans (Grammar.tokensAll_trees_file _),
    (errors_eq_nil_iff.1 h).1⟩

theorem IsWord.isLiteral {d : Document} {r : TokenRange} {k : Token.Kind}
    (hk : k ∈ Grammar.constantKinds)
    (h : d.IsWord r k) : d.IsLiteral r := by
  have hlexemes := h.cuts.lexemes_eq
  refine ⟨?_, ?_, ?_, ?_, .inl ⟨k, hk, ?_⟩⟩
  · rw [hlexemes]
    exact h.cuts
  · rw [hlexemes]
    exact ⟨List.cons_ne_nil _ _, fun l hl ↦ ⟨k, Option.some.inj hl ▸ rfl⟩,
      fun l hl ↦ ⟨k, Option.some.inj hl ▸ rfl⟩⟩
  · rw [hlexemes]
    exact List.forall_mem_singleton.2 nofun
  · rw [signs, hlexemes, h.tokenTexts_eq]
    show _ = [String.ofList _]
    rw [String.ofList_toList]
  · rw [signs, hlexemes]
    rfl

namespace IsCut

variable {d : Document}

theorem kind_ne_unknown (h : d.IsCut) : ∀ l ∈ lexemes d.source.toList, l.kind ≠ .unknown :=
  Scan.unknown_place_eq_nil_iff.1 h.unknown_eq

/-- A run of tokens comes from a run of lexemes, and its text is that of the lexemes. -/
theorem exists_lexemes (h : d.IsCut) {w : List Token} (hw : w <:+: d.tokens.toList) (hne : w ≠ []) :
    ∃ before ls after, lexemes d.source.toList = before ++ (ls ++ after) ∧
      w.map Token.sign = ls.filterMap Lexeme.sign? ∧ Framed ls ∧
      d.spanText w = String.ofList (textOf ls) := by
  obtain ⟨us, vs, htokens⟩ := hw
  rw [h.toList_tokens_eq, List.append_assoc] at htokens
  obtain ⟨before, ls, after, hlexemes, rfl, hframed⟩ := exists_lexemes_of_tokens htokens.symm hne
  refine ⟨before, ls, after, hlexemes, Scan.map_sign_tokens_place .., hframed, ?_⟩
  refine Document.spanText_of_framed ⟨textOf before, textOf after, ?_, rfl⟩ hframed
  rw [← textOf_append, ← textOf_append, ← hlexemes, textOf_lexemes, String.ofList_toList]

/-- **The text of a run of tokens is cut in front of every delimiter** as it was in the document. -/
theorem exists_cuts (h : d.IsCut) {w : List Token} (hw : w <:+: d.tokens.toList) (hne : w ≠ []) :
    ∃ ls, Cuts (d.spanText w).toList ls ∧ Framed ls ∧ (∀ l ∈ ls, l.kind ≠ .unknown) ∧
      w.map Token.sign = ls.filterMap Lexeme.sign? := by
  obtain ⟨before, ls, after, hlexemes, hsigns, hframed, hspan⟩ := h.exists_lexemes hw hne
  have hknown : ∀ l ∈ ls, l.kind ≠ .unknown := by
    intro l hl
    refine h.kind_ne_unknown l ?_
    rw [hlexemes]
    exact List.mem_append_right _ (List.mem_append_left _ hl)
  refine ⟨ls, ?_, hframed, hknown, hsigns⟩
  rw [hspan, String.toList_ofList]
  refine cuts_of_lexemes hlexemes hknown fun l hl ↦ ?_
  obtain ⟨k, hk⟩ := hframed.last l hl
  rw [hk]
  exact nofun

/-- One token that frames some lexemes is all of them. -/
theorem eq_singleton_of_framed {ls : List Lexeme} (hls : Framed ls) {k : Token.Kind} {text : String}
    (h : ls.filterMap Lexeme.sign? = [(k, text)]) : ls = [⟨.token k, text.toList⟩] := by
  obtain ⟨hne, hfirst, hlast⟩ := hls
  rcases ls with - | ⟨⟨kind, chars⟩, rest⟩
  · exact absurd rfl hne
  · obtain ⟨k', rfl⟩ := hfirst _ rfl
    rw [List.filterMap_cons_some (show Lexeme.sign? ⟨.token k', chars⟩ = some (k', .ofList chars)
      from rfl)] at h
    obtain ⟨hsign, hrest⟩ := List.cons.inj h
    obtain ⟨rfl, rfl⟩ := Prod.mk.inj hsign
    obtain rfl | ⟨init, ⟨kind, chars'⟩, rfl⟩ := List.eq_nil_or_concat' rest
    · rw [String.toList_ofList]
    · obtain ⟨k'', rfl⟩ := hlast _ (List.getLast?_concat (l := _ :: init))
      have hmem := List.filterMap_eq_nil_iff.1 hrest _ (List.mem_append_right _ List.mem_cons_self)
      exact nomatch hmem

/-- A token comes from a lexeme of its own, and its text is what stands in the document. -/
theorem exists_lexeme (h : d.IsCut) {t : Token} (ht : [t] <:+: d.tokens.toList) :
    ∃ before after, lexemes d.source.toList = before ++ (⟨.token t.kind, t.text.toList⟩ :: after) ∧
      d.spanText [t] = t.text := by
  obtain ⟨before, ls, after, hlexemes, hsigns, hframed, hspan⟩ :=
    h.exists_lexemes ht (List.cons_ne_nil t [])
  obtain rfl := eq_singleton_of_framed hframed hsigns.symm
  refine ⟨before, after, hlexemes, ?_⟩
  rw [hspan, textOf_cons, show textOf [] = [] from rfl, List.append_nil, String.ofList_toList]

/-- A word, or a constant of one token, as it stands in the document. -/
theorem isWord (h : d.IsCut) {t : Token} (ht : [t] <:+: d.tokens.toList)
    {r : TokenRange} (htext : d.rangeText r = d.spanText [t]) (htexts : d.tokenTexts r = [t.text]) :
    d.IsWord r t.kind := by
  obtain ⟨before, after, hlexemes, hspan⟩ := h.exists_lexeme ht
  have hrange : d.rangeText r = t.text := htext.trans hspan
  refine ⟨?_, by rw [htexts, hrange]⟩
  rw [hrange]
  exact cuts_of_token hlexemes

/-- Strings next to each other as they stand in the document. -/
theorem isLiteral_strings (h : d.IsCut) {ts : List Token} (hts : ts <:+: d.tokens.toList)
    (hne : ts ≠ []) (hstrings : ∀ t ∈ ts, t.kind = .stringLiteral) {r : TokenRange}
    (htext : d.rangeText r = d.spanText ts) (htexts : d.tokenTexts r = ts.map (·.text)) :
    d.IsLiteral r := by
  obtain ⟨ls, hcuts, hframed, hknown, hsigns⟩ := h.exists_cuts hts hne
  rw [← htext] at hcuts
  have hself : lexemes (d.rangeText r).toList = ls := hcuts.lexemes_eq
  refine ⟨?_, ?_, ?_, ?_, .inr ?_⟩
  · rwa [hself]
  · rwa [hself]
  · rwa [hself]
  · rw [htexts, signs, hself, ← hsigns, List.map_map]
    rfl
  · rw [signs, hself, ← hsigns]
    intro s hs
    obtain ⟨t, ht, rfl⟩ := List.mem_map.1 hs
    exact hstrings t ht

end IsCut

end Document

end BslLint
