import BslLint.Grammar.Parse
import BslLint.Proofs.Token.Cutting
import BslLint.Text.Encoding
import BslLint.Token.Basic
import Mathlib.Data.String.Basic

/-!
# Tokens and the text that they were cut from

A token notes where it begins and where it has ended, in bytes. A stretch of the text is got back by
cutting the source at such places (`extract_advance`), and so is the text from one token to another,
with the trivia between them. Runs of tokens come from runs of lexemes (`exists_lexemes_of_tokens`):
the shortest such run is **framed** by the tokens, so its text is the text between its first token
and its last.
-/

namespace BslLint

/-! ### Bytes -/

theorem Position.offset_advance (p : Position) (text : List Char) :
    (p.advance text).offset = p.offset + String.utf8Len text := by
  induction text generalizing p with
  | nil => rfl
  | cons c text ih =>
    have hstep : (p.step c).offset = p.offset + c.utf8Size := by
      unfold Position.step
      split <;> rfl
    rw [Position.advance_cons, ih, hstep, String.utf8Len_cons]
    omega

/-- The text between two places is what was read on the way from one to the other. -/
theorem extract_advance (before text after : List Char) :
    String.Pos.Raw.extract (String.ofList (before ++ (text ++ after)))
      ⟨(Position.start.advance before).offset⟩
      ⟨((Position.start.advance before).advance text).offset⟩ = String.ofList text := by
  have hbefore : (Position.start.advance before).offset = String.utf8Len before := by
    rw [Position.offset_advance]
    exact Nat.zero_add _
  rw [Position.offset_advance (Position.start.advance before), hbefore, ← List.append_assoc]
  exact String.extract_of_valid before text after

/-! ### Tokens of lexemes -/

/-- The kind and the text of a lexeme that is a token. -/
def Lexeme.sign? (l : Lexeme) : Option (Token.Kind × String) :=
  match l.kind with
  | .token k => some (k, String.ofList l.text)
  | _ => none

/-- The kind and the text of a token. -/
def Token.sign (t : Token) : Token.Kind × String := (t.kind, t.text)

namespace Scan

theorem place_append (p : Position) (ls ms : List Lexeme) :
    place p (ls ++ ms) =
      ⟨(place p ls).tokens ++ (place (p.advance (textOf ls)) ms).tokens,
        (place p ls).unknown ++ (place (p.advance (textOf ls)) ms).unknown⟩ := by
  induction ls generalizing p with
  | nil => rfl
  | cons l ls ih =>
    rw [List.cons_append, place, place, ih, textOf_cons, Position.advance_append]
    simp only
    split <;> rfl

theorem tokens_place_append (p : Position) (ls ms : List Lexeme) :
    (place p (ls ++ ms)).tokens =
      (place p ls).tokens ++ (place (p.advance (textOf ls)) ms).tokens := by
  rw [place_append]

theorem tokens_place_cons (p : Position) (l : Lexeme) (ls : List Lexeme) :
    (place p (l :: ls)).tokens = (place p [l]).tokens ++ (place (p.advance l.text) ls).tokens := by
  have h := tokens_place_append p [l] ls
  rwa [textOf_cons, show textOf [] = [] from rfl, List.append_nil] at h

theorem tokens_place_token (p : Position) (k : Token.Kind) (text : List Char) :
    (place p [⟨.token k, text⟩]).tokens = [⟨k, String.ofList text, p, p.advance text⟩] := rfl

/-- Places aside, the tokens are the lexemes that are tokens. -/
theorem map_sign_tokens_place (p : Position) (ls : List Lexeme) :
    (place p ls).tokens.map Token.sign = ls.filterMap Lexeme.sign? := by
  induction ls generalizing p with
  | nil => rfl
  | cons l ls ih =>
    rw [tokens_place_cons, List.map_append, ih]
    obtain ⟨kind, text⟩ := l
    cases kind <;> rfl

theorem unknown_place_eq_nil_iff {p : Position} {ls : List Lexeme} :
    (place p ls).unknown = [] ↔ ∀ l ∈ ls, l.kind ≠ .unknown := by
  induction ls generalizing p with
  | nil => exact ⟨fun _ ↦ nofun, fun _ ↦ rfl⟩
  | cons l ls ih =>
    obtain ⟨kind, text⟩ := l
    rw [List.forall_mem_cons]
    cases kind with
    | token k => exact ih.trans ⟨fun h ↦ ⟨nofun, h⟩, And.right⟩
    | trivia => exact ih.trans ⟨fun h ↦ ⟨nofun, h⟩, And.right⟩
    | unknown => exact ⟨nofun, fun h ↦ absurd rfl h.1⟩

/-- Behind what has been read, `skipped` included, the reader of the cuts finds the places. -/
theorem catchUp_cuts_append (before skipped : List Char) (ls : List Lexeme) :
    catchUp (String.ofList (before ++ (skipped ++ textOf ls))) (String.utf8Len before)
        (Position.start.advance before) (cuts (String.utf8Len (before ++ skipped)) ls) =
      place (Position.start.advance (before ++ skipped)) ls := by
  induction ls generalizing before skipped with
  | nil => rfl
  | cons l ls ih =>
    obtain ⟨kind, text⟩ := l
    have hskip := String.extract_of_valid before skipped (text ++ textOf ls)
    have hslice := String.extract_of_valid (before ++ skipped) text (textOf ls)
    have hread := ih (before ++ (skipped ++ text)) []
    have htrivia := ih before (skipped ++ text)
    rw [textOf_cons, cuts, String.utf8ByteSize_ofList, ← String.utf8Len_append]
    simp only [List.append_assoc, List.nil_append, List.append_nil, ← String.utf8Len_append,
      Position.advance_append] at hskip hslice hread htrivia ⊢
    -- Trivia waits to be caught up with; any other piece is read with what was skipped before it.
    cases kind with
    | trivia => exact htrivia
    | token k =>
      simp only [catchUp, place, hskip, hslice, String.toList_ofList, hread]
    | unknown =>
      simp only [catchUp, place, hskip, hslice, String.toList_ofList, hread]

/-- **The reader of the cuts finds the tokens of the text**, each at its place. -/
theorem catchUp_cuts (text : String) :
    catchUp text 0 .start (cuts 0 (lexemes text.toList)) = ofText text := by
  have h := catchUp_cuts_append [] [] (lexemes text.toList)
  rwa [textOf_lexemes, List.nil_append, List.nil_append, String.ofList_toList] at h

end Scan

/-- A text of which the first lexeme is known does not begin with the mark. -/
theorem Text.withoutMark_of_lexemes {text : String}
    (h : ∀ l, (lexemes text.toList).head? = some l → l.kind ≠ .unknown) :
    withoutMark text = text := by
  rw [withoutMark]
  split
  next c rest htext =>
    refine if_neg ?_
    rintro rfl
    have hsign : Lexeme.IsSign mark := ⟨by decide, by decide⟩
    rw [htext, lexemes_cons, Lexeme.head_of_isSign hsign] at h
    exact h _ rfl rfl
  next => rfl

/-- The tokens of a text in which nothing is unknown are those among its lexemes. -/
theorem Scan.ofText_of_lexemes {text : String} {ls : List Lexeme} (h : lexemes text.toList = ls)
    (hknown : ∀ l ∈ ls, l.kind ≠ .unknown) : (ofText (Text.withoutMark text)).unknown = [] ∧
      (ofText (Text.withoutMark text)).tokens.map Token.sign = ls.filterMap Lexeme.sign? := by
  subst h
  rw [Text.withoutMark_of_lexemes fun l hl ↦ hknown l (List.mem_of_mem_head? hl), ofText]
  exact ⟨unknown_place_eq_nil_iff.2 hknown, map_sign_tokens_place _ _⟩

/-! ### Lexemes of tokens -/

/-- The first lexeme is a token and so is the last. -/
structure Framed (ls : List Lexeme) : Prop where
  /-- There is a lexeme. -/
  ne_nil : ls ≠ []
  /-- The first lexeme is a token. -/
  first : ∀ l, ls.head? = some l → ∃ k, l.kind = .token k
  /-- The last lexeme is a token. -/
  last : ∀ l, ls.getLast? = some l → ∃ k, l.kind = .token k

/-- The lexemes in front of a run of tokens. -/
theorem exists_lexemes_before {p : Position} {ms : List Lexeme} {us ts : List Token}
    (h : (Scan.place p ms).tokens = us ++ ts) (hts : ts ≠ []) :
    ∃ before ls, ms = before ++ ls ∧
      (Scan.place (p.advance (textOf before)) ls).tokens = ts ∧
      ∀ l, ls.head? = some l → ∃ k, l.kind = .token k := by
  induction ms generalizing p us with
  | nil => exact absurd (List.append_eq_nil_iff.1 h.symm).2 hts
  | cons l ms ih =>
    rw [Scan.tokens_place_cons] at h
    -- What is left out in front of the tokens goes to the lexemes before.
    have hstep : ∀ {us'}, (Scan.place (p.advance l.text) ms).tokens = us' ++ ts →
        ∃ before ls, l :: ms = before ++ ls ∧
          (Scan.place (p.advance (textOf before)) ls).tokens = ts ∧
          ∀ l, ls.head? = some l → ∃ k, l.kind = .token k := by
      intro us' h'
      obtain ⟨before, ls, hms, htokens, hfirst⟩ := ih h'
      refine ⟨l :: before, ls, congrArg (l :: ·) hms, ?_, hfirst⟩
      rwa [textOf_cons, Position.advance_append]
    obtain ⟨kind, text⟩ := l
    cases kind with
    | token k =>
      -- The first token ends the search if no tokens stand before it.
      rcases us with - | ⟨u, us⟩
      · refine ⟨[], _, rfl, ?_, fun l hl ↦ ⟨k, Option.some.inj hl ▸ rfl⟩⟩
        rw [Scan.tokens_place_cons]
        exact h
      · exact hstep (List.cons.inj h).2
    | trivia => exact hstep h
    | unknown => exact hstep h

/-- The shortest run of lexemes that a run of tokens comes from. -/
theorem exists_lexemes_upTo {p : Position} {ms : List Lexeme} {ts vs : List Token}
    (h : (Scan.place p ms).tokens = ts ++ vs) (hts : ts ≠ []) :
    ∃ ls after, ms = ls ++ after ∧ (Scan.place p ls).tokens = ts ∧
      ∀ l, ls.getLast? = some l → ∃ k, l.kind = .token k := by
  induction ms generalizing p ts with
  | nil => exact absurd (List.append_eq_nil_iff.1 h.symm).1 hts
  | cons l ms ih =>
    rw [Scan.tokens_place_cons] at h
    -- A lexeme in front is kept, and the last one stays the last.
    have hstep : ∀ {ts'}, ts' ≠ [] → (Scan.place (p.advance l.text) ms).tokens = ts' ++ vs →
        (Scan.place p [l]).tokens ++ ts' = ts → ∃ ls after, l :: ms = ls ++ after ∧
          (Scan.place p ls).tokens = ts ∧ ∀ l, ls.getLast? = some l → ∃ k, l.kind = .token k := by
      intro ts' hts' h' htokens
      obtain ⟨ls, after, hms, hls, hlast⟩ := ih h' hts'
      refine ⟨l :: ls, after, congrArg (l :: ·) hms, ?_, ?_⟩
      · rw [Scan.tokens_place_cons, hls, htokens]
      · rcases ls with - | ⟨m, ls⟩
        · exact absurd hls.symm hts'
        · exact fun l' hl' ↦ hlast l' (List.getLast?_cons_cons ▸ hl')
    obtain ⟨kind, text⟩ := l
    cases kind with
    | token k =>
      rcases ts with - | ⟨t, ts⟩
      · exact absurd rfl hts
      · obtain ⟨rfl, hrest⟩ := List.cons.inj h
        -- At the last token the run ends, without the white space behind it.
        by_cases hnil : ts = []
        · subst hnil
          exact ⟨[_], ms, rfl, rfl, fun l hl ↦ ⟨k, Option.some.inj hl ▸ rfl⟩⟩
        · exact hstep hnil hrest rfl
    | trivia => exact hstep hts h rfl
    | unknown => exact hstep hts h rfl

theorem exists_lexemes_of_tokens {ms : List Lexeme} {us ts vs : List Token}
    (h : (Scan.place .start ms).tokens = us ++ (ts ++ vs)) (hts : ts ≠ []) :
    ∃ before ls after, ms = before ++ (ls ++ after) ∧
      (Scan.place (Position.start.advance (textOf before)) ls).tokens = ts ∧ Framed ls := by
  obtain ⟨before, rest, rfl, hrest, hfirst⟩ := exists_lexemes_before h fun hnil ↦
    hts (List.append_eq_nil_iff.1 hnil).1
  obtain ⟨ls, after, rfl, hls, hlast⟩ := exists_lexemes_upTo hrest hts
  refine ⟨before, ls, after, rfl, hls, ?_, ?_, hlast⟩
  · rintro rfl
    exact hts hls.symm
  · rcases ls with - | ⟨l, ls⟩
    · exact nofun
    · exact fun l' hl' ↦ hfirst l' hl'

/-- Tokens of framed lexemes begin where the lexemes do. -/
theorem Framed.exists_head {ls : List Lexeme} (h : Framed ls) (p : Position) :
    ∃ t, (Scan.place p ls).tokens.head? = some t ∧ t.start = p := by
  obtain ⟨hne, hfirst, -⟩ := h
  rcases ls with - | ⟨⟨kind, text⟩, ls⟩
  · exact absurd rfl hne
  · obtain ⟨k, rfl⟩ := hfirst _ rfl
    exact ⟨_, rfl, rfl⟩

/-- Tokens of framed lexemes end where the lexemes do. -/
theorem Framed.exists_getLast {ls : List Lexeme} (h : Framed ls) (p : Position) :
    ∃ t, (Scan.place p ls).tokens.getLast? = some t ∧ t.stop = p.advance (textOf ls) := by
  obtain ⟨hne, -, hlast⟩ := h
  obtain hnil | ⟨init, ⟨kind, text⟩, hls⟩ := List.eq_nil_or_concat ls
  · exact absurd hnil hne
  · obtain rfl : ls = init ++ [⟨kind, text⟩] := hls.trans List.concat_eq_append
    obtain ⟨k, rfl⟩ := hlast _ List.getLast?_concat
    rw [Scan.tokens_place_append, Scan.tokens_place_token, List.getLast?_concat]
    refine ⟨_, rfl, ?_⟩
    show (p.advance (textOf init)).advance text = p.advance (textOf (init ++ [⟨.token k, text⟩]))
    rw [textOf_append, Position.advance_append, textOf_cons, show textOf [] = [] from rfl,
      List.append_nil]

/-! ### Evaluation -/

/-- `Scan.ofText` in the form that is evaluated. -/
def Scan.evaluated (text : String) : Scan :=
  place .start (lexemesUpTo text.toList.length text.toList)

theorem Scan.ofText_eq_evaluated (text : String) : ofText text = evaluated text :=
  congrArg (place .start) (lexemes_eq_lexemesUpTo_length text.toList)

/-- The document of a source that has been cut into tokens. -/
def Document.ofScan (source : String) (scan : Scan) : Document :=
  let step := Grammar.file scan.tokens
  { source
    trees := step.trees
    errors := (scan.unknown.map (·.toError) ++
      step.faults.map (·.toError (lastStop scan.tokens))).mergeSort
        fun e f ↦ e.span.start.le f.span.start }

/-- `Document.ofText` in the form that is evaluated. -/
def Document.evaluated (text : String) : Document :=
  ofScan (Text.withoutMark text) (Scan.evaluated (Text.withoutMark text))

theorem Document.ofText_eq_evaluated (text : String) : ofText text = evaluated text :=
  congrArg (ofScan (Text.withoutMark text)) (Scan.ofText_eq_evaluated (Text.withoutMark text))

end BslLint
