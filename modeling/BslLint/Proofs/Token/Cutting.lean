import BslLint.Proofs.Token.Ends

/-!
# Cutting a text that is put together

A text that is put together from pieces should be cut into the lexemes of the pieces. What makes
this work is a property of the pieces alone, `Cuts`: a piece is cut in the same way in front of
every delimiter. What has been cut out of any text, from one token to another, has this property
(`cuts_of_lexemes`).
-/

namespace BslLint

/-- The text of some lexemes. -/
def textOf (ls : List Lexeme) : List Char := ls.flatMap (·.text)

theorem textOf_cons (l : Lexeme) (ls : List Lexeme) : textOf (l :: ls) = l.text ++ textOf ls := rfl

theorem textOf_append (ls ms : List Lexeme) : textOf (ls ++ ms) = textOf ls ++ textOf ms :=
  List.flatMap_append

theorem textOf_lexemes (text : List Char) : textOf (lexemes text) = text :=
  flatMap_text_lexemes text

theorem lexemes_of_head {c : Char} {r v : List Char} {k : Lexeme.Class}
    (h : Lexeme.head c (r ++ v) = (k, r.length)) :
    lexemes (c :: (r ++ v)) = ⟨k, c :: r⟩ :: lexemes v := by
  rw [lexemes_cons, h, List.take_left, List.drop_left]

/-- A lexeme of a text stands in front of the text of those behind it. -/
theorem exists_head_of_lexemes {text : List Char} {before after : List Lexeme} {l : Lexeme}
    (h : lexemes text = before ++ l :: after) :
    ∃ c r, l.text = c :: r ∧ Lexeme.head c (r ++ textOf after) = (l.kind, r.length) := by
  induction before generalizing text with
  | nil =>
    rcases text with - | ⟨c, rest⟩
    · rw [lexemes] at h
      cases h
    · rw [lexemes_cons] at h
      obtain ⟨rfl, rfl⟩ := List.cons.inj h
      refine ⟨c, _, rfl, ?_⟩
      have hle := Lexeme.head_le c rest
      rw [textOf_lexemes, List.take_append_drop, List.length_take, Nat.min_eq_left hle]
  | cons l' before ih =>
    rcases text with - | ⟨c, rest⟩
    · rw [lexemes] at h
      cases h
    · rw [lexemes_cons] at h
      exact ih (List.cons.inj h).2

/-- A text is cut into some lexemes in front of every delimiter. -/
def Cuts (text : List Char) (ls : List Lexeme) : Prop :=
  ∀ v, Lexeme.Delimits v → lexemes (text ++ v) = ls ++ lexemes v

theorem Cuts.lexemes_eq {text : List Char} {ls : List Lexeme} (h : Cuts text ls) :
    lexemes text = ls := by
  have hnil := h [] Lexeme.delimits_nil
  rwa [List.append_nil, show lexemes [] = [] by rw [lexemes], List.append_nil] at hnil

/-- **Lexemes of a text that end with a token are cut in front of every delimiter**, unless there is
something unknown among them. -/
theorem cuts_of_lexemes {text : List Char} {before ls after : List Lexeme}
    (h : lexemes text = before ++ (ls ++ after)) (hls : ∀ l ∈ ls, l.kind ≠ .unknown)
    (hlast : ∀ l, ls.getLast? = some l → l.kind ≠ .trivia) : Cuts (textOf ls) ls := by
  intro v hv
  induction ls generalizing before with
  | nil => rfl
  | cons l ls ih =>
    obtain ⟨hl, hothers⟩ := List.forall_mem_cons.1 hls
    obtain ⟨c, r, htext, hhead⟩ := exists_head_of_lexemes h
    rw [show ls.append after = ls ++ after from rfl, textOf_append] at hhead
    have hnext : lexemes text = (before ++ [l]) ++ (ls ++ after) := by
      rw [h, List.append_assoc]
      rfl
    -- What follows the first lexeme is cut by induction, whatever is put behind it.
    have hrest : lexemes (textOf ls ++ v) = ls ++ lexemes v := by
      refine ih hnext hothers fun m hm ↦ hlast m ?_
      rw [List.getLast?_cons, hm]
      rfl
    -- White space would go on into `v`, so it must not be the last.
    have hempty : textOf ls = [] → l.kind ≠ .trivia := by
      intro hnil
      rcases ls with - | ⟨m, ls⟩
      · exact hlast l rfl
      · obtain ⟨d, s, hm, -⟩ := exists_head_of_lexemes hnext
        rw [textOf_cons, hm] at hnil
        exact nomatch hnil
    obtain ⟨kind, chars⟩ := l
    obtain rfl : chars = c :: r := htext
    rw [textOf_cons, List.append_assoc, List.cons_append,
      lexemes_of_head (Lexeme.head_append (Lexeme.head_of_append hhead hl) hl hempty hv), hrest,
      List.cons_append]

/-- A single token of a text is cut in front of every delimiter. -/
theorem cuts_of_token {text : List Char} {before after : List Lexeme} {k : Token.Kind}
    {piece : List Char} (h : lexemes text = before ++ ⟨.token k, piece⟩ :: after) :
    Cuts piece [⟨.token k, piece⟩] := by
  have hcuts : Cuts (textOf [⟨.token k, piece⟩]) [⟨.token k, piece⟩] :=
    cuts_of_lexemes h (List.forall_mem_singleton.2 nofun) fun l hl ↦ Option.some.inj hl ▸ nofun
  rwa [textOf_cons, show textOf [] = [] from rfl, List.append_nil] at hcuts

/-! ### Cutting by evaluation -/

/-- The class and the length of a piece, from the reserved word that was found at its front. -/
def Lexeme.headWith (found : Option (Keyword × Nat)) (c : Char) (rest : List Char) :
    Lexeme.Class × Nat :=
  let run := nameLength (c :: rest)
  match found with
  | some (word, n) =>
    if run ≤ n then (.token (.keyword word), n - 1) else (.token .identifier, run - 1)
  | none => if run = 0 then otherHead c rest else (.token .identifier, run - 1)

theorem Lexeme.head_eq_headWith (c : Char) (rest : List Char) :
    head c rest = headWith (Keyword.written.1.foldl (Keyword.look (c :: rest)) none) c rest := by
  rw [← Keyword.longest?_eq_written]
  rfl

/-- At most the number of lexemes from the front of a text. The recursion is on the number, and
words are looked for in the table that is written out, so that the kernel evaluates this quickly. -/
def lexemesUpTo : Nat → List Char → List Lexeme
  | 0, _ => []
  | _ + 1, [] => []
  | bound + 1, c :: rest =>
    let head := Lexeme.headWith (Keyword.written.1.foldl (Keyword.look (c :: rest)) none) c rest
    ⟨head.1, c :: rest.take head.2⟩ :: lexemesUpTo bound (rest.drop head.2)

/-- A text has at most as many lexemes as characters. -/
theorem lexemes_eq_lexemesUpTo {text : List Char} {bound : Nat} (h : text.length ≤ bound) :
    lexemes text = lexemesUpTo bound text := by
  induction bound generalizing text with
  | zero =>
    obtain rfl := List.eq_nil_of_length_eq_zero (Nat.le_zero.1 h)
    rw [lexemes, lexemesUpTo]
  | succ bound ih =>
    cases text with
    | nil => rw [lexemes, lexemesUpTo]
    | cons c rest =>
      have hrest : (rest.drop (Lexeme.head c rest).2).length ≤ bound := by
        rw [List.length_drop]
        exact Nat.le_trans (Nat.sub_le ..) (Nat.le_of_succ_le_succ h)
      rw [lexemesUpTo, ← Lexeme.head_eq_headWith, lexemes_cons, ih hrest]

theorem lexemes_eq_lexemesUpTo_length (text : List Char) :
    lexemes text = lexemesUpTo text.length text :=
  lexemes_eq_lexemesUpTo (Nat.le_refl _)

end BslLint
