import BslLint.Proofs.Token.Places

/-!
# Tokens with spaces between them

Tokens are written down one after the other with a space between any two of them (`Token.spaced`).
If each of them is spelled as a token of its kind is, just these tokens are cut out of the text, and
nothing in it is unknown (`Scan.ofText_spaced`): a space delimits whatever stands in front of it,
and no token begins with a blank.

The tokens of any text are spelled in this way (`Scan.isSpelled_of_mem_tokens`), whatever stood
between them, so they survive when all else is replaced by spaces.
-/

namespace BslLint

namespace Lexeme

/-- A single space. -/
def space : Lexeme := ⟨.trivia, [' ']⟩

/-- The text does not begin with a blank. -/
def Unblank (v : List Char) : Prop := ∀ c, v.head? = some c → isBlank c = false

theorem unblank_cons {c : Char} (hc : isBlank c = false) (v : List Char) : Unblank (c :: v) :=
  fun _ hd ↦ Option.some.inj hd ▸ hc

/-- A space in front of what is no blank is a piece of its own. -/
theorem lexemes_space {v : List Char} (hv : Unblank v) :
    lexemes (' ' :: v) = space :: lexemes v := by
  have hhead : head ' ' v = (.trivia, (v.takeWhile isBlank).length) :=
    head_of_isSign (isSign_of_lt (by decide)) v
  have hnone : v.takeWhile isBlank = [] := by
    rcases v with - | ⟨c, v⟩
    · rfl
    · rw [List.takeWhile_cons_of_neg (by rw [hv c rfl]; decide)]
  rw [lexemes_cons, hhead, hnone]
  rfl

/-- A space delimits whatever stands before it. -/
theorem delimits_space (v : List Char) : Delimits (' ' :: v) :=
  delimits_cons (by decide) (by decide) v

/-- No token begins with a blank. -/
theorem unblank_of_framed {text : List Char} {ls : List Lexeme} (h : Cuts text ls)
    (hls : Framed ls) (v : List Char) : Unblank (text ++ v) := by
  have hlexemes := h.lexemes_eq
  rcases text with - | ⟨c, r⟩
  · rw [lexemes] at hlexemes
    exact absurd hlexemes.symm hls.ne_nil
  · refine unblank_cons (Bool.eq_false_iff.2 fun hc ↦ ?_) _
    rw [lexemes_cons] at hlexemes
    obtain ⟨k, hk⟩ := hls.first _ (by rw [← hlexemes, List.head?_cons])
    -- A blank is trivia.
    rw [head_of_isSign (isSign_of_isBlank hc), otherHead, if_pos hc] at hk
    cases hk

end Lexeme

namespace Token

/-- A token as a piece of text. -/
def lexeme (t : Token) : Lexeme := ⟨.token t.kind, t.text.toList⟩

/-- The text of the token is read as a token of its kind. -/
def IsSpelled (t : Token) : Prop := lexemes t.text.toList = [t.lexeme]

instance (t : Token) : Decidable t.IsSpelled :=
  inferInstanceAs (Decidable (lexemes t.text.toList = [t.lexeme]))

/-- The texts of tokens with a space between any two. -/
def spaced (ts : List Token) : String := " ".intercalate (ts.map (·.text))

variable {t : Token} {ts : List Token}

/-- A token is cut from its own text, whatever delimits it. -/
theorem IsSpelled.cuts (h : t.IsSpelled) : Cuts t.text.toList [t.lexeme] :=
  @cuts_of_token t.text.toList [] [] t.kind t.text.toList h

/-- No token begins with a blank. -/
theorem IsSpelled.unblank (h : t.IsSpelled) (v : List Char) :
    Lexeme.Unblank (t.text.toList ++ v) := by
  refine Lexeme.unblank_of_framed h.cuts ⟨List.cons_ne_nil _ _, ?_, ?_⟩ v
  all_goals exact fun l hl ↦ ⟨t.kind, Option.some.inj hl ▸ rfl⟩

/-- **Tokens with spaces between them are cut out as they were written down.** -/
theorem lexemes_spaced (h : ∀ t ∈ ts, t.IsSpelled) :
    lexemes (spaced ts).toList = (ts.map lexeme).intersperse .space := by
  rw [spaced, String.toList_intercalate, List.map_map]
  induction ts with
  | nil => rw [List.map_nil, List.intercalate_nil, lexemes]; rfl
  | cons t ts ih =>
    obtain ⟨ht, hts⟩ := List.forall_mem_cons.1 h
    cases ts with
    | nil => exact (congrArg lexemes (List.intercalate_singleton ..)).trans ht
    | cons u us =>
      obtain ⟨rest, hrest⟩ : ∃ rest, " ".toList.intercalate ((u :: us).map (String.toList ∘ text)) =
          rest := ⟨_, rfl⟩
      -- Behind the space stands the next token, which does not begin with a blank.
      obtain ⟨v, hv⟩ : ∃ v, rest = u.text.toList ++ v := hrest ▸ exists_intercalate_cons ..
      have hunblank : Lexeme.Unblank rest := hv ▸ (hts u List.mem_cons_self).unblank v
      have htext : " ".toList.intercalate ((t :: u :: us).map (String.toList ∘ text)) =
          t.text.toList ++ ' ' :: rest := by
        rw [← hrest, List.map_cons, List.map_cons, List.intercalate_cons_cons, List.append_assoc]
        rfl
      rw [htext, ht.cuts _ (Lexeme.delimits_space rest), Lexeme.lexemes_space hunblank, ← hrest,
        ih hts]
      rfl

/-- No space is a token, and nothing is unknown. -/
theorem sign?_of_spaced (ts : List Token) :
    ((ts.map lexeme).intersperse .space).filterMap Lexeme.sign? =
    ts.map sign ∧ ∀ l ∈ (ts.map lexeme).intersperse .space, l.kind ≠ .unknown := by
  have hsign (t : Token) : t.lexeme.sign? = some t.sign := by
    rw [lexeme, Lexeme.sign?, String.ofList_toList]
    rfl
  induction ts with
  | nil => exact ⟨rfl, nofun⟩
  | cons t ts ih =>
    cases ts with
    | nil => exact ⟨List.filterMap_cons_some (hsign t), List.forall_mem_singleton.2 nofun⟩
    | cons u us =>
      rw [List.map_cons, List.map_cons, List.intersperse_cons_cons]
      refine ⟨?_, List.forall_mem_cons.2 ⟨nofun, List.forall_mem_cons.2 ⟨nofun, ih.2⟩⟩⟩
      rw [List.filterMap_cons_some (hsign t), List.filterMap_cons_none rfl, ← List.map_cons, ih.1]
      rfl

end Token

/-- **A text of spelled tokens** has these tokens, and nothing in it is unknown. -/
theorem Scan.ofText_spaced {ts : List Token} (h : ∀ t ∈ ts, t.IsSpelled) :
    (ofText (Text.withoutMark (Token.spaced ts))).unknown = [] ∧
      (ofText (Text.withoutMark (Token.spaced ts))).tokens.map Token.sign = ts.map Token.sign := by
  obtain ⟨hsigns, hknown⟩ := Token.sign?_of_spaced ts
  rw [← hsigns]
  exact ofText_of_lexemes (Token.lexemes_spaced h) hknown

/-! ### Tokens of any text -/

namespace Scan

/-- A token comes from a lexeme of its kind and its text. -/
theorem lexeme_mem_of_mem_tokens_place {p : Position} {ls : List Lexeme} {t : Token}
    (h : t ∈ (place p ls).tokens) : t.lexeme ∈ ls := by
  induction ls generalizing p with
  | nil => exact nomatch h
  | cons l ls ih =>
    rw [tokens_place_cons, List.mem_append] at h
    rcases h with h | h
    · obtain ⟨kind, text⟩ := l
      cases kind with
      | token k =>
        obtain rfl := List.mem_singleton.1 h
        rw [Token.lexeme, String.toList_ofList]
        exact List.mem_cons_self
      | trivia => exact nomatch h
      | unknown => exact nomatch h
    · exact List.mem_cons_of_mem _ (ih h)

/-- Taken out of its text, a token is still read as the token that it is. -/
theorem isSpelled_of_mem_tokens {text : String} {t : Token} (h : t ∈ (ofText text).tokens) :
    t.IsSpelled := by
  obtain ⟨before, after, hsplit⟩ := List.append_of_mem (lexeme_mem_of_mem_tokens_place h)
  exact (cuts_of_token hsplit).lexemes_eq

/-- **Tokens survive spacing.** Written down with spaces for all that stood between them, unknown
pieces included, the tokens of any text are read again, and nothing is unknown any more. -/
theorem tokens_survive_spacing (text : String) :
    (ofText (Token.spaced (ofText text).tokens)).unknown = [] ∧
      (ofText (Token.spaced (ofText text).tokens)).tokens.map Token.sign =
        (ofText text).tokens.map Token.sign := by
  have hspelled : ∀ t ∈ (ofText text).tokens, t.IsSpelled := fun _ ↦ isSpelled_of_mem_tokens
  obtain ⟨hsigns, hknown⟩ := Token.sign?_of_spaced (ofText text).tokens
  rw [ofText, Token.lexemes_spaced hspelled]
  exact ⟨unknown_place_eq_nil_iff.2 hknown, (map_sign_tokens_place _ _).trans hsigns⟩

end Scan

end BslLint
