import BslLint.Data.Toml.Reader
import BslLint.Proofs.Data.Runs

/-!
# Strings and keys are read as they were written

A string is written in quotes, one or three of them, in which characters are spelled (`Spells`), or
in apostrophes, where all stand for themselves. In each of these notations it is read back
(`Reader.value?_writeString`), and so is a key, whether it is in quotes or not
(`Reader.keyPart?_writeKey`), and a key with dots (`Reader.key?_dotted`).
-/

namespace BslLint.Toml.Reader

variable {c : Char} {cs rest : List Char}

/-! ### Characters -/

/-- What stands for a character in a string in quotes. Over several lines a new line may stand for
itself. -/
inductive Spells (lines : Bool) (c : Char) : List Char → Prop
  | letter {e : Char} (h : letterEscape? e = some c) : Spells lines c ['\\', e]
  | number {a b d e : Char} (h : numberEscape? [a, b, d, e] = some c) :
    Spells lines c ['\\', 'u', a, b, d, e]
  | plain (h : isPlain c = true) (hquote : c ≠ '"') (hescape : c ≠ '\\') : Spells lines c [c]
  | line (hlines : lines = true) (h : c = '\n') : Spells lines c ['\n']

/-- What needs no escape may stand for itself. -/
theorem isPlain_of_needsEscape_eq_false (h : needsEscape c = false) (hline : c ≠ '\n') :
    isPlain c = true := by
  have hdelete : c ≠ '\x7f' := by
    rintro rfl
    exact absurd h (by decide)
  have h127 : c.toNat ≠ 127 := fun hc ↦ hdelete (Char.toNat_inj.1 hc)
  simp only [needsEscape, Bool.or_eq_false_iff, Bool.and_eq_false_iff, bne_eq_false_iff_eq,
    decide_eq_false_iff_not] at h
  simp only [isPlain, Bool.or_eq_true, beq_iff_eq, Bool.and_eq_true, decide_eq_true_eq]
  obtain (h | h) | h := h.1
  · exact .inr ⟨by omega, h127⟩
  · exact .inl h
  · exact absurd h hline

/-- A character that is written by its number is read from it. -/
theorem numberEscape?_numbered (h : needsEscape c = true) :
    numberEscape? ['0', '0', hexDigit (c.toNat / 16), hexDigit (c.toNat % 16)] = some c := by
  have hlt : c.toNat < 128 := by
    simp only [needsEscape, Bool.or_eq_true, Bool.and_eq_true, decide_eq_true_eq, beq_iff_eq] at h
    obtain h | rfl := h
    · omega
    · decide
  have hall : ∀ n < 128, numberEscape? ['0', '0', hexDigit (n / 16), hexDigit (n % 16)] =
      some (Char.ofNat n) := by decide +kernel
  rw [hall _ hlt, Char.ofNat_toNat]

/-- A character is written for itself, if it is a quote of which enough are free, or in a way that
spells it. -/
theorem escaped_cons (free : Nat) (lines : Bool) (k : Nat) (c : Char) (cs : List Char) :
    (c = '"' ∧ k < free ∧ escaped free lines k (c :: cs) = '"' :: escaped free lines (k + 1) cs) ∨
      ∃ w, Spells lines c w ∧ escaped free lines k (c :: cs) = w ++ escaped free lines 0 cs := by
  rw [escaped.eq_def]
  dsimp only
  split
  next hquote =>
    subst hquote
    split
    next => exact .inr ⟨['\\', '"'], .letter rfl, rfl⟩
    next hfree => exact .inl ⟨rfl, by omega, rfl⟩
  next hquote =>
    refine .inr ⟨_, ?_, rfl⟩
    split
    · exact .letter rfl
    · exact .letter rfl
    · split
      next hlines => exact .line hlines rfl
      next => exact .letter rfl
    · exact .letter rfl
    · exact .letter rfl
    · exact .letter rfl
    next _ _ hline _ _ hslash =>
      split
      next h => exact .number (numberEscape?_numbered h)
      next h =>
        exact .plain (isPlain_of_needsEscape_eq_false (by simpa using h) hline) hquote hslash

/-! ### Strings on one line -/

theorem letterEscape?_ne {c e : Char} (h : letterEscape? e = some c) : e ≠ 'u' ∧ e ≠ 'U' := by
  constructor <;> rintro rfl <;> exact nomatch h

/-- In quotes a character is read from what spells it. -/
theorem Spells.quotedBody? {w : List Char} (h : Spells false c w) (rest : List Char) :
    quotedBody? (w ++ rest) = before c (quotedBody? rest) := by
  cases h with
  | letter h =>
    obtain ⟨hu, hU⟩ := letterEscape?_ne h
    simp only [List.cons_append, List.nil_append]
    rw [Reader.quotedBody?, h]
    · rfl
    · intros; exact hu ‹_›
    · intros; exact hU ‹_›
  | number h =>
    simp only [List.cons_append, List.nil_append]
    rw [Reader.quotedBody?, h]
    rfl
  | plain h hquote hslash =>
    simp only [List.cons_append, List.nil_append]
    rw [Reader.quotedBody?, if_pos h]
    · exact hquote
    -- no other way of reading begins with this character
    all_goals intros; exact hslash ‹_›
  | line h => exact nomatch h

/-- The inside of a string in quotes is read as the string. -/
theorem quotedBody?_escaped (cs rest : List Char) (k : Nat) :
    quotedBody? (escaped 0 false k cs ++ '"' :: rest) = some (cs, rest) := by
  induction cs generalizing k with
  | nil => rw [escaped, List.nil_append, quotedBody?]
  | cons c cs ih =>
    obtain ⟨-, hk, -⟩ | ⟨w, hw, heq⟩ := escaped_cons 0 false k c cs
    · exact absurd hk (Nat.not_lt_zero k)
    · rw [heq, List.append_assoc, hw.quotedBody?, ih]
      rfl

/-- The inside of a string in apostrophes is read as the string. -/
theorem literalBody?_append (h : ∀ c ∈ cs, isPlain c = true ∧ c ≠ '\'') (rest : List Char) :
    literalBody? (cs ++ '\'' :: rest) = some (cs, rest) := by
  induction cs with
  | nil => rw [List.nil_append, literalBody?]
  | cons c cs ih =>
    obtain ⟨⟨hplain, hquote⟩, hcs⟩ := List.forall_mem_cons.1 h
    rw [List.cons_append, literalBody?, if_pos hplain, ih hcs]
    · rfl
    · exact hquote

/-! ### Strings over several lines -/

-- The equations are derived here, before the proofs that ask for them at the same time.
attribute [local simp] tripleBody?

/-- Characters read behind quotes that belong to the string. -/
def behind (quote : Char) (k : Nat) (read : Option (List Char × List Char)) :
    Option (List Char × List Char) :=
  read.map fun (cs, rest) ↦ (List.replicate k quote ++ cs, rest)

/-- Fewer than three quotes do not end a string over several lines. -/
theorem afterQuotes_of_lt {quote : Char} {k : Nat} (h : k < 3) (here : List Char)
    (goOn : Unit → Option (List Char × List Char)) :
    afterQuotes quote k here goOn = behind quote k (goOn ()) := if_pos h

/-- A quote more is counted. -/
theorem tripleBody?_quote (quote : Char) (hquote : quote = '"' ∨ quote = '\'') (k : Nat)
    (rest : List Char) :
    tripleBody? quote .kept k (quote :: rest) = tripleBody? quote .kept (k + 1) rest := by
  have hreturn : quote ≠ '\x0d' := by obtain rfl | rfl := hquote <;> decide
  have hslash : quote ≠ '\\' := by obtain rfl | rfl := hquote <;> decide
  rw [tripleBody?]
  · exact if_pos (by simp)
  · intros; exact hreturn ‹_›
  all_goals intros; exact hslash ‹_›

/-- Three to five quotes end a string, and all but three of them belong to it. -/
theorem tripleBody?_end {quote : Char} {k : Nat} (hlow : 3 ≤ k) (hhigh : k ≤ 5)
    (hrest : ∀ c, rest.head? = some c → c ≠ quote) :
    tripleBody? quote .kept k rest = some (List.replicate (k - 3) quote, rest) := by
  have hafter (here : List Char) (goOn : Unit → Option (List Char × List Char)) :
      afterQuotes quote k here goOn = some (List.replicate (k - 3) quote, here) := by
    rw [afterQuotes, if_neg (by omega), if_pos hhigh]
  fun_cases tripleBody? quote .kept k rest with
  | case6 c rest _ _ _ _ hquote => exact absurd (by simpa using hquote) (hrest c rfl)
  | _ => exact hafter _ _

/-- A character that is neither a quote nor a backslash stands for itself. -/
theorem tripleBody?_plain {quote : Char} {k : Nat} (hk : k < 3) (h : isPlain c = true ∨ c = '\n')
    (hquote : c ≠ quote) (hslash : c ≠ '\\') (rest : List Char) :
    tripleBody? quote .kept k (c :: rest) =
      behind quote k (before c (tripleBody? quote .kept 0 rest)) := by
  rw [Reader.tripleBody?, afterQuotes_of_lt hk, if_neg (by simpa using hquote)]
  · obtain h | rfl := h
    · by_cases hline : c = '\n'
      · simp [hline]
      · simp [hline, h]
    · simp
  · rintro _ rfl -
    exact absurd h (by decide)
  all_goals intros; exact hslash ‹_›

/-- In apostrophes a backslash stands for itself too. -/
theorem tripleBody?_backslash {k : Nat} (hk : k < 3) (rest : List Char) :
    tripleBody? '\'' .kept k ('\\' :: rest) =
      behind '\'' k (before '\\' (tripleBody? '\'' .kept 0 rest)) := by
  have hgo (here : List Char) (goOn : Unit → Option (List Char × List Char))
      (h : goOn () = before '\\' (tripleBody? '\'' .kept 0 rest)) :
      afterQuotes '\'' k here goOn =
        behind '\'' k (before '\\' (tripleBody? '\'' .kept 0 rest)) := by
    rw [afterQuotes_of_lt hk, h]
  generalize htext : '\\' :: rest = text
  fun_cases tripleBody? '\'' .kept k text with
  | case1 => exact nomatch htext
  | case2 => exact nomatch (List.cons.inj htext).1
  | case6 c cs _ _ _ _ hquote =>
    rw [← (List.cons.inj htext).1] at hquote
    exact absurd hquote (by decide)
  | case7 c cs =>
    obtain ⟨rfl, rfl⟩ := List.cons.inj htext
    exact hgo _ _ (by simp [isPlain])
  -- All other cases put the backslash in front of what is read behind it.
  | _ =>
    obtain ⟨-, rfl⟩ := List.cons.inj htext
    exact hgo _ _ (by simp)

/-- Over several lines a character is read from what spells it, and quotes before it belong to the
string. -/
theorem Spells.tripleBody? {w : List Char} (h : Spells true c w) {k : Nat} (hk : k < 3)
    (rest : List Char) :
    tripleBody? '"' .kept k (w ++ rest) =
      behind '"' k (before c (tripleBody? '"' .kept 0 rest)) := by
  cases h with
  | letter h =>
    obtain ⟨hu, hU⟩ := letterEscape?_ne h
    simp only [List.cons_append, List.nil_append]
    rw [Reader.tripleBody?, afterQuotes_of_lt hk]
    · simp [h]
    · intros; exact hu ‹_›
    · intros; exact hU ‹_›
  | number h =>
    simp only [List.cons_append, List.nil_append]
    rw [Reader.tripleBody?, afterQuotes_of_lt hk]
    simp [h]
  | plain h hquote hslash => exact tripleBody?_plain hk (.inl h) hquote hslash rest
  | line _ h =>
    subst h
    exact tripleBody?_plain hk (.inr rfl) (by decide) (by decide) rest

/-- Three quotes behind some others end a string. -/
theorem tripleBody?_close {quote : Char} (hquote : quote = '"' ∨ quote = '\'') {k : Nat}
    (hk : k < 3) (hrest : ∀ c, rest.head? = some c → c ≠ quote) :
    tripleBody? quote .kept k (quote :: quote :: quote :: rest) =
      some (List.replicate k quote, rest) := by
  rw [tripleBody?_quote quote hquote, tripleBody?_quote quote hquote,
    tripleBody?_quote quote hquote, tripleBody?_end (by omega) (by omega) hrest]
  rfl

/-- The inside of a string in three quotes is read as the string, behind what quotes come before. -/
theorem tripleBody?_escaped (cs : List Char) {k : Nat} (hk : k < 3)
    (hrest : ∀ c, rest.head? = some c → c ≠ '"') :
    tripleBody? '"' .kept k (escaped 2 true k cs ++ '"' :: '"' :: '"' :: rest) =
      some (List.replicate k '"' ++ cs, rest) := by
  induction cs generalizing k with
  | nil => rw [escaped, List.nil_append, List.append_nil, tripleBody?_close (.inl rfl) hk hrest]
  | cons c cs ih =>
    obtain ⟨rfl, hfree, heq⟩ | ⟨w, hw, heq⟩ := escaped_cons 2 true k c cs
    · rw [heq, List.cons_append, tripleBody?_quote '"' (.inl rfl), ih (by omega),
        List.replicate_succ', List.append_assoc]
      rfl
    · rw [heq, List.append_assoc, hw.tripleBody? hk, ih (by decide)]
      rfl

/-- The longest run of a character, and the one at the end, behind what came before. -/
def runs (c : Char) (start : Nat × Nat) (text : List Char) : Nat × Nat :=
  text.foldl (fun n d ↦ if d = c then (max n.1 (n.2 + 1), n.2 + 1) else (n.1, 0)) start

theorem longestRun_eq (c : Char) (text : List Char) : longestRun c text = (runs c (0, 0) text).1 :=
  rfl

theorem runs_cons (c : Char) (start : Nat × Nat) (d : Char) (text : List Char) :
    runs c start (d :: text) = runs c
      (if d = c then (max start.1 (start.2 + 1), start.2 + 1) else (start.1, 0)) text := rfl

/-- A run that was once reached stays the longest or gives way to a longer one. -/
theorem le_runs (c : Char) (start : Nat × Nat) (text : List Char) :
    start.1 ≤ (runs c start text).1 := by
  induction text generalizing start with
  | nil => exact Nat.le_refl _
  | cons d text ih =>
    rw [runs_cons]
    refine Nat.le_trans ?_ (ih _)
    split
    · exact Nat.le_max_left _ _
    · exact Nat.le_refl _

/-- The inside of a string in three apostrophes is read as the string, behind what apostrophes come
before, if there are never more than two of them in a row. -/
theorem tripleBody?_append {longest k : Nat} (hk : k < 3)
    (hruns : (runs '\'' (longest, k) cs).1 ≤ 2)
    (h : ∀ c ∈ cs, isPlain c = true ∨ c = '\n') (hrest : ∀ c, rest.head? = some c → c ≠ '\'') :
    tripleBody? '\'' .kept k (cs ++ '\'' :: '\'' :: '\'' :: rest) =
      some (List.replicate k '\'' ++ cs, rest) := by
  induction cs generalizing longest k with
  | nil => rw [List.nil_append, List.append_nil, tripleBody?_close (.inr rfl) hk hrest]
  | cons c cs ih =>
    obtain ⟨hc, hcs⟩ := List.forall_mem_cons.1 h
    rw [runs_cons] at hruns
    rw [List.cons_append]
    by_cases hquote : c = '\''
    · -- An apostrophe makes the run longer, and any other character ends it.
      subst hquote
      rw [if_pos rfl] at hruns
      have hshort := Nat.le_trans (le_runs '\'' _ cs) hruns
      rw [tripleBody?_quote '\'' (.inr rfl), ih (by omega) hruns hcs, List.replicate_succ',
        List.append_assoc]
      rfl
    · rw [if_neg hquote] at hruns
      have hstep : tripleBody? '\'' .kept k (c :: (cs ++ '\'' :: '\'' :: '\'' :: rest)) =
          behind '\'' k
            (before c (tripleBody? '\'' .kept 0 (cs ++ '\'' :: '\'' :: '\'' :: rest))) := by
        by_cases hslash : c = '\\'
        · subst hslash
          exact tripleBody?_backslash hk _
        · exact tripleBody?_plain hk hc hquote hslash _
      rw [hstep, ih (by decide) hruns hcs]
      rfl

/-- Without any run the character is not there. -/
theorem ne_of_runs_eq_zero {start : Nat × Nat} (h : (runs c start cs).1 = 0) :
    ∀ d ∈ cs, d ≠ c := by
  induction cs generalizing start with
  | nil => exact nofun
  | cons d cs ih =>
    rw [runs_cons] at h
    refine List.forall_mem_cons.2 ⟨?_, ih h⟩
    rintro rfl
    rw [if_pos rfl] at h
    have hle := le_runs d (max start.1 (start.2 + 1), start.2 + 1) cs
    have hmax := Nat.le_max_right start.1 (start.2 + 1)
    omega

/-! ### Notations -/

/-- A string is written in one of four notations, each of which can hold it. -/
theorem writeString_cases (oneLine : Bool) (s : String) :
    (writeString oneLine s).toList = quoted s.toList ∨
    ((writeString oneLine s).toList = literal s.toList ∧
      ∀ c ∈ s.toList, isPlain c = true ∧ c ≠ '\'') ∨
    oneLine = false ∧ ((writeString oneLine s).toList = tripleQuoted s.toList ∨
      ((writeString oneLine s).toList = tripleLiteral s.toList ∧
        longestRun '\'' s.toList ≤ 2 ∧ ∀ c ∈ s.toList, isPlain c = true ∨ c = '\n')) := by
  have hplain (hcontrol : s.toList.any needsEscape = false) (c : Char) (hc : c ∈ s.toList) :
      isPlain c = true ∨ c = '\n' := by
    by_cases hline : c = '\n'
    · exact .inr hline
    · rw [List.any_eq_false] at hcontrol
      exact .inl (isPlain_of_needsEscape_eq_false (by simpa using hcontrol c hc) hline)
  rw [writeString, String.toList_ofList]
  -- The tests are made in this order: a need for escapes, one line, apostrophes enough, several
  -- lines.
  split
  next => exact .inl rfl
  split
  next _ h =>
    simp only [Bool.and_eq_true, Bool.not_eq_true', decide_eq_true_eq] at h
    obtain ⟨⟨hcontrol, hquotes⟩, hlines⟩ := h
    refine .inr (.inl ⟨rfl, fun c hc ↦ ⟨?_, ne_of_runs_eq_zero hquotes c hc⟩⟩)
    refine (hplain hcontrol c hc).resolve_right ?_
    rintro rfl
    exact absurd hlines (by simpa using hc)
  split
  next => exact .inl rfl
  next honeLine =>
    have hoff : oneLine = false := by simpa using honeLine
    split
    next => exact .inr (.inr ⟨hoff, .inl rfl⟩)
    split
    next _ h =>
      simp only [Bool.and_eq_true, Bool.not_eq_true', decide_eq_true_eq] at h
      exact .inr (.inr ⟨hoff, .inr ⟨rfl, h.2, hplain h.1⟩⟩)
    split
    next => exact .inr (.inr ⟨hoff, .inl rfl⟩)
    next => exact .inl rfl

/-- What spells a character does not begin with a quote, nor with a new line unless it is one. -/
theorem Spells.exists_cons {lines : Bool} {w : List Char} (h : Spells lines c w) :
    ∃ d v, w = d :: v ∧ d ≠ '"' ∧ d ≠ '\x0d' ∧ (d = '\n' → c = '\n') := by
  cases h with
  | letter => exact ⟨_, _, rfl, by decide, by decide, nofun⟩
  | number => exact ⟨_, _, rfl, by decide, by decide, nofun⟩
  | plain h hquote =>
    refine ⟨_, _, rfl, hquote, ?_, id⟩
    rintro rfl
    exact absurd h (by decide)
  | line _ h => exact ⟨_, _, rfl, by decide, by decide, fun _ ↦ h⟩

/-- One quote begins a string on one line, unless the string is empty and another quote follows. -/
theorem escaped_append_ne (hrest : ∀ c, rest.head? = some c → c ≠ '"') (cs v : List Char) :
    escaped 0 false 0 cs ++ '"' :: rest ≠ '"' :: '"' :: v := by
  cases cs with
  | nil =>
    rw [escaped, List.nil_append]
    intro h
    exact hrest '"' (by rw [(List.cons.inj h).2]; rfl) rfl
  | cons c cs =>
    obtain ⟨-, hk, -⟩ | ⟨w, hw, heq⟩ := escaped_cons 0 false 0 c cs
    · exact absurd hk (Nat.not_lt_zero 0)
    · obtain ⟨d, u, rfl, hd, -⟩ := hw.exists_cons
      rw [heq]
      exact fun h ↦ hd (List.cons.inj h).1

/-- The new line that is put behind the opening quotes is skipped, and no other. -/
theorem skipNewLine_opening {text : List Char}
    (h : '\n' ∉ text → ∀ c, cs.head? = some c → c ≠ '\n' ∧ c ≠ '\x0d') :
    skipNewLine (opening text ++ cs) = cs := by
  rw [opening]
  split
  next => rfl
  next hlines =>
    rw [List.nil_append]
    fun_cases skipNewLine cs with
    | case1 => exact absurd rfl (h (by simpa using hlines) _ rfl).1
    | case2 => exact absurd rfl (h (by simpa using hlines) _ rfl).2
    | case3 => rfl

theorem quoted_append (text rest : List Char) :
    quoted text ++ rest = '"' :: (escaped 0 false 0 text ++ '"' :: rest) := by
  simp [quoted]

theorem literal_append (text rest : List Char) :
    literal text ++ rest = '\'' :: (text ++ '\'' :: rest) := by
  simp [literal]

/-! ### Values

Each notation is read as the string, if no quote of its kind follows. -/

theorem asString_toList (s : String) (rest : List Char) :
    asString (s.toList, rest) = (.str s, rest) := by
  rw [asString, String.ofList_toList]

/-- In each of the four notations a string is read back: in quotes, -/
theorem value?_quoted (fuel depth : Nat) (s : String)
    (hrest : ∀ c, rest.head? = some c → c ≠ '"') :
    value? (fuel + 1) depth (quoted s.toList ++ rest) = some (.str s, rest) := by
  rw [quoted_append, value?]
  · rw [quotedBody?_escaped, Option.map_some, asString_toList]
  · exact fun v ↦ escaped_append_ne hrest s.toList v

/-- in apostrophes, -/
theorem value?_literal (fuel depth : Nat) (s : String)
    (hplain : ∀ c ∈ s.toList, isPlain c = true ∧ c ≠ '\'')
    (hrest : ∀ c, rest.head? = some c → c ≠ '\'') :
    value? (fuel + 1) depth (literal s.toList ++ rest) = some (.str s, rest) := by
  rw [literal_append, value?]
  · rw [literalBody?_append hplain, Option.map_some, asString_toList]
  · intro v hv
    cases htext : s.toList with
    | nil =>
      rw [htext, List.nil_append] at hv
      exact hrest '\'' (by rw [(List.cons.inj hv).2]; rfl) rfl
    | cons c cs =>
      rw [htext, List.cons_append] at hv
      exact (hplain c (htext ▸ List.mem_cons_self)).2 (List.cons.inj hv).1

/-- in three quotes -/
theorem value?_tripleQuoted (fuel depth : Nat) (s : String)
    (hrest : ∀ c, rest.head? = some c → c ≠ '"') :
    value? (fuel + 1) depth (tripleQuoted s.toList ++ rest) = some (.str s, rest) := by
  rw [tripleQuoted]
  simp only [List.append_assoc, List.cons_append, List.nil_append]
  rw [value?, skipNewLine_opening, tripleBody?_escaped s.toList (by decide) hrest, Option.map_some]
  · exact congrArg some (asString_toList s rest)
  · -- A line end right behind the quotes would be lost, so the text has one there already.
    intro hlines c hc
    cases htext : s.toList with
    | nil =>
      obtain rfl : '"' = c := by simpa [htext, escaped] using hc
      exact ⟨by decide, by decide⟩
    | cons d cs =>
      rw [htext] at hlines hc
      obtain ⟨-, -, heq⟩ | ⟨w, hw, heq⟩ := escaped_cons 2 true 0 d cs
      · obtain rfl : '"' = c := by simpa [heq] using hc
        exact ⟨by decide, by decide⟩
      · obtain ⟨e, v, rfl, -, hreturn, hline⟩ := hw.exists_cons
        obtain rfl : e = c := by simpa [heq] using hc
        exact ⟨fun he ↦ hlines (hline he ▸ List.mem_cons_self), hreturn⟩

/-- and in three apostrophes. -/
theorem value?_tripleLiteral (fuel depth : Nat) (s : String)
    (hruns : longestRun '\'' s.toList ≤ 2) (hplain : ∀ c ∈ s.toList, isPlain c = true ∨ c = '\n')
    (hrest : ∀ c, rest.head? = some c → c ≠ '\'') :
    value? (fuel + 1) depth (tripleLiteral s.toList ++ rest) = some (.str s, rest) := by
  rw [longestRun_eq] at hruns
  rw [tripleLiteral]
  simp only [List.append_assoc, List.cons_append, List.nil_append]
  rw [value?, skipNewLine_opening, tripleBody?_append (by decide) hruns hplain hrest,
    Option.map_some]
  · exact congrArg some (asString_toList s rest)
  · -- As with quotes, a line end of the string itself comes behind one that is lost.
    intro hlines c hc
    cases htext : s.toList with
    | nil =>
      obtain rfl : '\'' = c := by simpa [htext] using hc
      exact ⟨by decide, by decide⟩
    | cons d cs =>
      obtain rfl : d = c := by simpa [htext] using hc
      have hd : d ∈ s.toList := htext ▸ List.mem_cons_self
      refine ⟨fun heq ↦ hlines (heq ▸ hd), ?_⟩
      rintro rfl
      exact absurd (hplain _ hd) (by decide)

/-- A string is read as it was written, if no quote follows. -/
theorem value?_writeString (fuel depth : Nat) (s : String)
    (hrest : ∀ c, rest.head? = some c → c ≠ '"' ∧ c ≠ '\'') :
    value? (fuel + 1) depth ((writeString false s).toList ++ rest) = some (.str s, rest) := by
  have hquote (c : Char) (hc : rest.head? = some c) : c ≠ '"' := (hrest c hc).1
  have hapostrophe (c : Char) (hc : rest.head? = some c) : c ≠ '\'' := (hrest c hc).2
  obtain h | ⟨h, hplain⟩ | ⟨-, h | ⟨h, hruns, hplain⟩⟩ := writeString_cases false s <;> rw [h]
  · exact value?_quoted fuel depth s hquote
  · exact value?_literal fuel depth s hplain hapostrophe
  · exact value?_tripleQuoted fuel depth s hquote
  · exact value?_tripleLiteral fuel depth s hruns hplain hapostrophe

/-! ### Keys -/

/-- A key begins with a quote, an apostrophe, or a character that needs neither. -/
theorem exists_writeKey_eq_cons (key : String) :
    ∃ c cs, (writeKey key).toList = c :: cs ∧
      (c = '"' ∨ c = '\'' ∨ isBareKeyChar c = true) := by
  rw [writeKey]
  split
  next h =>
    simp only [Bool.and_eq_true, Bool.not_eq_true', List.all_eq_true] at h
    obtain ⟨hne, hbare⟩ := h
    cases htext : key.toList with
    | nil => simp_all
    | cons c cs => exact ⟨c, cs, rfl, .inr (.inr (hbare c (htext ▸ List.mem_cons_self)))⟩
  next =>
    obtain h | ⟨h, -⟩ | ⟨h, -⟩ := writeString_cases true key
    · exact ⟨_, _, h, .inl rfl⟩
    · exact ⟨_, _, h, .inr (.inl rfl)⟩
    · exact nomatch h

/-- A key is read as it was written. -/
theorem keyPart?_writeKey (key : String)
    (hrest : ∀ c, rest.head? = some c → isBareKeyChar c = false) :
    keyPart? ((writeKey key).toList ++ rest) = some (key, rest) := by
  have hkey (rest : List Char) : some (String.ofList key.toList, rest) = some (key, rest) := by
    rw [String.ofList_toList]
  rw [writeKey]
  split
  next h =>
    simp only [Bool.and_eq_true, Bool.not_eq_true', List.all_eq_true] at h
    obtain ⟨hne, hbare⟩ := h
    have hempty : key.toList.isEmpty = false := by simpa using hne
    rw [keyPart?]
    · rw [takeWhile_append_of_forall hbare hrest, dropWhile_append_of_forall hbare hrest, hempty]
      exact hkey rest
    -- A bare key does not begin like a quoted one.
    all_goals
      intro v hv
      cases htext : key.toList with
      | nil => exact absurd hempty (by simp [htext])
      | cons c cs =>
        rw [htext] at hv
        have hc := hbare c (htext ▸ List.mem_cons_self)
        rw [(List.cons.inj hv).1] at hc
        exact absurd hc (by decide)
  next =>
    obtain h | ⟨h, hplain⟩ | ⟨h, -⟩ := writeString_cases true key
    · rw [h, quoted_append, keyPart?, quotedBody?_escaped]
      exact hkey rest
    · rw [h, literal_append, keyPart?, literalBody?_append hplain]
      exact hkey rest
    · exact nomatch h

theorem skipBlank_of_head (h : ∀ c, cs.head? = some c → isBlank c = false) :
    skipBlank cs = cs := by
  cases cs with
  | nil => rfl
  | cons c cs => rw [skipBlank, List.dropWhile_cons, h c rfl]; rfl

/-- A key does not begin with a blank. -/
theorem skipBlank_writeKey (key : String) (rest : List Char) :
    skipBlank ((writeKey key).toList ++ rest) = (writeKey key).toList ++ rest := by
  obtain ⟨c, cs, heq, hc⟩ := exists_writeKey_eq_cons key
  refine skipBlank_of_head fun d hd ↦ ?_
  obtain rfl : c = d := by simpa [heq] using hd
  obtain rfl | rfl | hbare := hc
  · rfl
  · rfl
  · rw [isBlank, Bool.or_eq_false_iff, beq_eq_false_iff_ne, beq_eq_false_iff_ne]
    constructor <;> rintro rfl <;> exact absurd hbare (by decide)

/-- A key with dots in it. -/
def dotted (path : List String) (key : String) : List Char :=
  ['.'].intercalate ((path ++ [key]).map fun k ↦ (writeKey k).toList)

theorem dotted_nil (key : String) : dotted [] key = (writeKey key).toList :=
  List.intercalate_singleton

theorem dotted_cons (k : String) (path : List String) (key : String) :
    dotted (k :: path) key = (writeKey k).toList ++ '.' :: dotted path key := by
  have hne : (path ++ [key]).map (fun k ↦ (writeKey k).toList) ≠ [] := by simp
  rw [dotted, List.cons_append, List.map_cons, List.intercalate_cons_of_ne_nil hne]
  simp [dotted]

/-- A key with dots is read as it was written, up to what is not blank. -/
theorem key?_dotted {parts : Nat} (path : List String) (key : String) (rest : List Char)
    (hparts : path.length < parts)
    (hrest : ∀ c, rest.head? = some c → isBareKeyChar c = false)
    (hdot : (skipBlank rest).head? ≠ some '.') :
    key? parts (dotted path key ++ rest) = some (path, key, skipBlank rest) := by
  -- Every name of the path takes a dot with it, and the key is the last.
  induction path generalizing parts with
  | nil =>
    obtain ⟨parts, rfl⟩ := Nat.exists_eq_add_of_lt hparts
    rw [dotted_nil, key?, skipBlank_writeKey, keyPart?_writeKey key hrest]
    simp only [Option.bind_eq_bind, Option.bind_some]
    split
    next heq => exact absurd (by rw [heq]; rfl) hdot
    next => rfl
  | cons k path ih =>
    obtain ⟨parts, rfl⟩ : ∃ n, parts = n + 1 := ⟨parts - 1, by omega⟩
    rw [dotted_cons, List.append_assoc, key?, skipBlank_writeKey, keyPart?_writeKey k]
    · simp only [Option.bind_eq_bind, Option.bind_some, List.cons_append]
      rw [skipBlank_of_head]
      · simp only [ih (Nat.lt_of_succ_lt_succ hparts)]
        rfl
      · rintro c hc
        obtain rfl := Option.some.inj hc
        rfl
    · rintro c hc
      obtain rfl := Option.some.inj hc
      decide

end BslLint.Toml.Reader
