import BslLint.Proofs.Data.Runs
import BslLint.Proofs.Token.Words

/-!
# Where pieces of text end

A lexeme is the longest piece that fits, so what it is depends on the text behind it. How much it
depends on it is different for strings, dates and numbers, and is told here for each. A string ends
with a quote unless another one follows, a date ends with its apostrophe, and a number where no
digit and no fraction follows. **Delimiters** (`Delimits`) go on with none of them, and with no
word.
-/

namespace BslLint

open Text (isDigit)

/-- The letters come behind the digits and the signs in front of these. -/
theorem isLetter_of_lt {c : Char} (h : c.toNat < 65) : isLetter c = false := by
  have hle : ∀ d : Char, 65 ≤ d.toNat → decide (d ≤ c) = false := by
    intro d hd
    rw [decide_eq_false_iff_not]
    intro hdc
    have hcd : d.toNat ≤ c.toNat := hdc
    omega
  have hne : ∀ d : Char, 65 ≤ d.toNat → (c == d) = false := by
    intro d hd
    rw [beq_eq_false_iff_ne]
    rintro rfl
    omega
  simp [isLetter, hle 'А' (by decide), hle 'а' (by decide), hle 'A' (by decide),
    hle 'a' (by decide), hne 'Ё' (by decide), hne 'ё' (by decide), hne '_' (by decide)]

namespace Lexeme

/-- A character that is in no word, whatever its case. -/
def IsSign (c : Char) : Prop := Keyword.foldCase c = c ∧ isLetter c = false

/-- Nothing in front of the letters is in a word. -/
theorem isSign_of_lt {c : Char} (h : c.toNat < 65) : IsSign c :=
  ⟨Keyword.foldCase_of_lt h, isLetter_of_lt h⟩

theorem nameLength_of_isSign {c : Char} (h : IsSign c) (rest : List Char) :
    nameLength (c :: rest) = 0 := by
  rw [nameLength, h.2]
  rfl

/-- No word begins with such a character. -/
theorem head_of_isSign {c : Char} (h : IsSign c) (rest : List Char) :
    head c rest = otherHead c rest := by
  have hnone : Keyword.longest? (c :: rest) = none := by
    refine Keyword.longest?_eq_none fun p hp ↦ ?_
    have hletters := Keyword.isLetter_of_mem_spelling p hp
    rcases hspelling : p.1 with - | ⟨s, spelling⟩
    · exact absurd hspelling (Keyword.spelling_ne_nil p hp)
    · rw [hspelling] at hletters
      have hne : s ≠ Keyword.foldCase c := by
        rw [h.1]
        rintro rfl
        exact absurd (hletters s List.mem_cons_self) (Bool.eq_false_iff.1 h.2)
      rw [Keyword.begins, beq_eq_false_iff_ne.2 hne, Bool.false_and]
  rw [head, hnone, nameLength_of_isSign h]
  rfl

/-! ### Pieces are no longer than the text -/

/-- Each piece in turn: strings, -/
theorem stringTail?_le {text : List Char} {n : Nat} (h : stringTail? text = some n) :
    n ≤ text.length := by
  fun_induction stringTail? text generalizing n with
  | case1 => exact nomatch h
  | case2 rest ih =>
    obtain ⟨m, hm, rfl⟩ := Option.map_eq_some_iff.1 h
    exact Nat.add_le_add_right (ih hm) 2
  | case3 rest hrest =>
    obtain rfl := Option.some.inj h
    exact Nat.succ_le_succ (Nat.zero_le _)
  | case4 c rest _ _ ih =>
    obtain ⟨m, hm, rfl⟩ := Option.map_eq_some_iff.1 h
    exact Nat.succ_le_succ (ih hm)

theorem fractionTail_le (text : List Char) : fractionTail text ≤ text.length := by
  unfold fractionTail
  split
  · have hle := length_takeWhile_le isDigit ‹List Char›
    simp only [List.length_cons]
    split <;> omega
  · exact Nat.zero_le _

/-- numbers, -/
theorem numberTail_le (text : List Char) : numberTail text ≤ text.length := by
  have hle := fractionTail_le (text.dropWhile isDigit)
  have hlength := congrArg List.length (List.takeWhile_append_dropWhile (p := isDigit) (l := text))
  rw [List.length_append] at hlength
  unfold numberTail
  omega

/-- dates, -/
theorem dateHead_le (text : List Char) : (dateHead text).2 ≤ text.length := by
  have hle := length_takeWhile_le (fun c ↦ c != '\'' && !isLineEnd c) text
  unfold dateHead
  simp only
  split
  next h =>
    by_contra hgt
    rw [List.drop_eq_nil_of_le (by omega)] at h
    exact nomatch h
  next => exact hle

/-- annotations and lines for the preprocessor, -/
theorem directiveHead_le (text : List Char) : (directiveHead text).2 ≤ text.length := by
  unfold directiveHead
  split
  · split
    · exact length_takeWhile_le _ _
    · exact Nat.zero_le _
  · exact Nat.zero_le _

/-- signs, -/
theorem signHead_le (c : Char) (rest : List Char) : (signHead c rest).2 ≤ rest.length := by
  unfold signHead
  split <;> simp

theorem otherHead_le (c : Char) (rest : List Char) : (otherHead c rest).2 ≤ rest.length := by
  unfold otherHead stringHead
  split
  · exact length_takeWhile_le _ _
  · split
    · exact length_takeWhile_le _ _
    · split
      · exact numberTail_le rest
      · split
        · split
          · exact stringTail?_le ‹_›
          · exact Nat.le_refl _
        · split
          · exact dateHead_le rest
          · split
            · exact directiveHead_le rest
            · exact signHead_le c rest

/-- and words. -/
theorem nameLength_le (c : Char) (rest : List Char) : nameLength (c :: rest) ≤ rest.length + 1 := by
  rw [nameLength]
  split
  · exact Nat.succ_le_succ (length_takeWhile_le _ _)
  · exact Nat.zero_le _

/-- **No piece is longer than the text.** Its first character is there, so only the others are
counted. -/
theorem head_le (c : Char) (rest : List Char) : (head c rest).2 ≤ rest.length := by
  have hname := nameLength_le c rest
  unfold head
  simp only
  split
  next word n hfound =>
    obtain ⟨p, -, hbegins, hn⟩ := Keyword.exists_begins_of_longest? hfound
    have hle : n ≤ rest.length + 1 := by
      rw [show n = p.1.length from hn]
      exact Keyword.length_le_of_begins hbegins
    split <;> simp only <;> omega
  next =>
    split
    · exact otherHead_le c rest
    · simp only
      omega

/-! ### Delimiters -/

/-- The characters that come behind a word or a constant in a written expression. -/
def delimiters : List Char := [' ', '(', ')', '[', ']', ',', '.', ';']

/-- What is evaluated of all delimiters holds of each. -/
theorem eq_false_of_mem_delimiters {p : Char → Bool} (h : delimiters.all (p · == false) = true) :
    ∀ c ∈ delimiters, p c = false :=
  fun c hc ↦ eq_of_beq (List.all_eq_true.1 h c hc)

/-- A text that no word, number, date or string in front of it runs into. -/
structure Delimits (v : List Char) : Prop where
  /-- It begins with a delimiter, if at all. -/
  mem_delimiters : ∀ c, v.head? = some c → c ∈ delimiters
  /-- It does not begin with a fraction. -/
  fractionTail_eq : fractionTail v = 0

theorem delimits_nil : Delimits [] := ⟨nofun, rfl⟩

/-- Every delimiter but the dot ends what stands before it, whatever follows. -/
theorem delimits_cons {c : Char} (hc : c ∈ delimiters) (hdot : c ≠ '.') (v : List Char) :
    Delimits (c :: v) := by
  refine ⟨fun d hd ↦ Option.some.inj hd ▸ hc, ?_⟩
  unfold fractionTail
  split
  · exact absurd (List.cons.inj ‹_›).1 hdot
  · rfl

section

variable {v : List Char} (h : Delimits v)

include h

/-- No name goes on with a delimiter, -/
theorem Delimits.isNameChar_eq_false : ∀ c, v.head? = some c → isNameChar c = false :=
  fun c hc ↦ eq_false_of_mem_delimiters (by decide) c (h.mem_delimiters c hc)

/-- no number, -/
theorem Delimits.isDigit_eq_false : ∀ c, v.head? = some c → isDigit c = false :=
  fun c hc ↦ eq_false_of_mem_delimiters (by decide) c (h.mem_delimiters c hc)

/-- and no reserved word. -/
theorem Delimits.notMem_spelling {p : List Char × Keyword} (hp : p ∈ Keyword.spellings) :
    ∀ c, v.head? = some c → Keyword.foldCase c ∉ p.1 := by
  intro c hc hmem
  have hsign : isLetter (Keyword.foldCase c) = false := eq_false_of_mem_delimiters
    (p := fun c ↦ isLetter (Keyword.foldCase c)) (by decide) c (h.mem_delimiters c hc)
  exact Bool.eq_false_iff.1 hsign (Keyword.isLetter_of_mem_spelling p hp _ hmem)

end

/-! ### One class of pieces at a time

A piece with the characters `r` behind its first one was cut in front of `w`, and is to be cut in
front of `v`. -/

section

variable {c : Char} {r v w : List Char}

/-- A quote ends the string, unless a second one follows. -/
theorem stringTail?_quote {rest : List Char} (h : rest.head? ≠ some '"') :
    stringTail? ('"' :: rest) = some 1 := by
  rw [stringTail?]
  rintro rest' rfl
  exact h rfl

/-- Any other character is passed over. -/
theorem stringTail?_cons {d : Char} (hd : d ≠ '"') (rest : List Char) :
    stringTail? (d :: rest) = (stringTail? rest).map (· + 1) := by
  rw [stringTail?]
  · rintro rest' rfl
    exact absurd rfl hd
  · rintro rfl
    exact absurd rfl hd

theorem stringTail?_pos {text : List Char} {n : Nat} (h : stringTail? text = some n) : 0 < n := by
  fun_induction stringTail? text generalizing n with
  | case1 => exact nomatch h
  | case2 rest =>
    obtain ⟨m, -, rfl⟩ := Option.map_eq_some_iff.1 h
    exact Nat.succ_pos _
  | case3 rest => exact Option.some.inj h ▸ Nat.one_pos
  | case4 d rest =>
    obtain ⟨m, -, rfl⟩ := Option.map_eq_some_iff.1 h
    exact Nat.succ_pos _

/-- A string ends at the same quote whatever comes behind it, but for another quote. -/
theorem stringTail?_append : ∀ {r : List Char}, stringTail? (r ++ w) = some r.length →
    w.head? ≠ some '"' ∧ ∀ v, v.head? ≠ some '"' → stringTail? (r ++ v) = some r.length
  | [], h => absurd (stringTail?_pos h) (Nat.lt_irrefl 0)
  | d :: r, h => by
    by_cases hd : d = '"'
    · subst hd
      rcases r with - | ⟨e, r⟩
      · refine ⟨fun hw ↦ ?_, fun v hv ↦ stringTail?_quote hv⟩
        rcases w with - | ⟨e, w⟩
        · exact nomatch hw
        · obtain rfl := Option.some.inj hw
          replace h : (stringTail? w).map (· + 2) = some 1 := h
          obtain ⟨m, -, hm⟩ := Option.map_eq_some_iff.1 h
          omega
      · by_cases he : e = '"'
        · subst he
          replace h : (stringTail? (r ++ w)).map (· + 2) = some (r.length + 2) := h
          obtain ⟨m, hm, hlength⟩ := Option.map_eq_some_iff.1 h
          obtain rfl : m = r.length := Nat.add_right_cancel hlength
          obtain ⟨hw, hall⟩ := stringTail?_append hm
          refine ⟨hw, fun v hv ↦ ?_⟩
          show (stringTail? (r ++ v)).map (· + 2) = some (r.length + 2)
          rw [hall v hv]
          rfl
        · have hhead : (e :: r ++ w).head? ≠ some '"' := fun hq ↦ he (Option.some.inj hq)
          rw [List.cons_append, stringTail?_quote hhead] at h
          exact nomatch h
    · rw [List.cons_append, stringTail?_cons hd] at h
      obtain ⟨m, hm, hlength⟩ := Option.map_eq_some_iff.1 h
      obtain rfl : m = r.length := Nat.add_right_cancel hlength
      obtain ⟨hw, hall⟩ := stringTail?_append hm
      refine ⟨hw, fun v hv ↦ ?_⟩
      rw [List.cons_append, stringTail?_cons hd, hall v hv]
      rfl

/-- What begins with no letter is no word. -/
theorem signHead_not_word (c : Char) (rest : List Char) :
    ∀ k, (signHead c rest).1 = .token k → k.isNameLike = false := by
  intro k hk
  unfold signHead at hk
  split at hk <;> cases hk <;> rfl

/-- What is no word is no name either. -/
theorem otherHead_not_word (c : Char) (rest : List Char) :
    ∀ k, (otherHead c rest).1 = .token k → k.isNameLike = false := by
  intro k hk
  unfold otherHead at hk
  split at hk
  · exact nomatch hk
  · split at hk
    · exact nomatch hk
    · split at hk
      · cases hk
        rfl
      · split at hk
        · unfold stringHead at hk
          split at hk <;> cases hk
          rfl
        · split at hk
          · unfold dateHead at hk
            simp only at hk
            split at hk <;> cases hk
            rfl
          · split at hk
            · unfold directiveHead at hk
              split at hk
              · split at hk <;> cases hk
                rfl
              · exact nomatch hk
            · exact signHead_not_word c rest k hk

/-- The characters inside of a date. -/
def isInDate (c : Char) : Bool := c != '\'' && !isLineEnd c

/-- A date reaches to the first apostrophe, if that comes before the end of the line. -/
theorem dateHead_cases {k : Class} {n : Nat} {rest : List Char} (h : dateHead rest = (k, n)) :
    k = .unknown ∨ k = .token .dateLiteral ∧
      ∃ inside more, rest = inside ++ '\'' :: more ∧ (∀ c ∈ inside, isInDate c = true) ∧
        n = inside.length + 1 := by
  have hsplit := List.takeWhile_append_dropWhile (p := isInDate) (l := rest)
  unfold dateHead at h
  rw [show (fun c ↦ c != '\'' && !isLineEnd c) = isInDate from rfl] at h
  simp only at h
  have hdrop : (rest.takeWhile isInDate ++ rest.dropWhile isInDate).drop
      (rest.takeWhile isInDate).length = rest.dropWhile isInDate := List.drop_left
  rw [hsplit] at hdrop
  rw [hdrop] at h
  split at h
  next hquote =>
    cases h
    rcases hmore : rest.dropWhile isInDate with - | ⟨d, more⟩
    · rw [hmore] at hquote
      exact nomatch hquote
    · rw [hmore] at hquote hsplit
      obtain rfl := Option.some.inj hquote
      exact .inr ⟨rfl, _, more, hsplit.symm, fun c hc ↦ List.mem_takeWhile_imp hc, rfl⟩
  next =>
    cases h
    exact .inl rfl

theorem isSign_of_isBlank (h : isBlank c = true) : IsSign c := by
  simp only [isBlank, Bool.or_eq_true, beq_iff_eq] at h
  rcases h with (((rfl | rfl) | rfl) | rfl) | rfl <;> exact isSign_of_lt (by decide)

/-- The ten digits follow each other. -/
theorem toNat_of_isDigit (h : isDigit c = true) : 48 ≤ c.toNat ∧ c.toNat ≤ 57 := by
  rw [isDigit, Bool.and_eq_true, decide_eq_true_iff, decide_eq_true_iff] at h
  exact h

theorem isSign_of_isDigit (h : isDigit c = true) : IsSign c :=
  isSign_of_lt (Nat.lt_of_le_of_lt (toNat_of_isDigit h).2 (by decide))

/-- A digit is no blank. -/
theorem isBlank_of_isDigit (h : isDigit c = true) : isBlank c = false := by
  rw [Bool.eq_false_iff]
  intro hblank
  simp only [isBlank, Bool.or_eq_true, beq_iff_eq] at hblank
  rcases hblank with (((rfl | rfl) | rfl) | rfl) | rfl <;> exact absurd h (by decide)

/-- A date ends at the same apostrophe whatever comes behind it. -/
theorem dateHead_append (h : dateHead (r ++ w) = (.token .dateLiteral, r.length))
    (v : List Char) : dateHead (r ++ v) = (.token .dateLiteral, r.length) := by
  obtain hk | ⟨-, inside, more, hrest, hinside, hn⟩ := dateHead_cases h
  · exact nomatch hk
  · have hr : r = inside ++ ['\''] := by
      have hwhole : r ++ w = (inside ++ ['\'']) ++ more := by
        rw [hrest, List.append_assoc, List.singleton_append]
      refine List.append_inj_left hwhole ?_
      rw [hn, List.length_append, List.length_singleton]
    have hwhile : ((r ++ v).takeWhile fun c ↦ c != '\'' && !isLineEnd c) = inside := by
      rw [hr, List.append_assoc]
      refine takeWhile_append_of_forall hinside fun c hc ↦ ?_
      obtain rfl := Option.some.inj hc
      rfl
    rw [dateHead, hwhile]
    simp [hr]

/-- A number is digits, or digits with a fraction, and what follows does not go on with it. -/
theorem numberTail_cases (h : numberTail (r ++ w) = r.length) :
    (∀ c, w.head? = some c → isDigit c = false) ∧
      ((∀ c ∈ r, isDigit c = true) ∧ fractionTail w = 0 ∨
        ∃ digits fraction, r = digits ++ '.' :: fraction ∧ fraction ≠ [] ∧
          (∀ c ∈ digits, isDigit c = true) ∧ ∀ c ∈ fraction, isDigit c = true) := by
  have hsplit := List.takeWhile_append_dropWhile (p := isDigit) (l := r ++ w)
  unfold numberTail at h
  by_cases hfraction : fractionTail ((r ++ w).dropWhile isDigit) = 0
  · rw [hfraction, Nat.add_zero] at h
    have hr := forall_of_length_takeWhile h
    have hw := head_takeWhile_eq_false h
    rw [dropWhile_append_of_forall hr hw] at hfraction
    exact ⟨hw, .inl ⟨hr, hfraction⟩⟩
  · generalize hdigits : (r ++ w).takeWhile isDigit = digits at h hsplit
    have hall : ∀ c ∈ digits, isDigit c = true := by
      rw [← hdigits]
      exact fun c hc ↦ List.mem_takeWhile_imp hc
    unfold fractionTail at h hfraction
    split at h
    next rest hrest =>
      rw [hrest] at hsplit hfraction
      simp only at hfraction
      have hne : (rest.takeWhile isDigit).length ≠ 0 := fun h0 ↦ hfraction (if_pos h0)
      rw [if_neg hne] at h
      have hwhole : r ++ w =
          (digits ++ '.' :: rest.takeWhile isDigit) ++ rest.dropWhile isDigit := by
        rw [← hsplit, List.append_assoc, List.cons_append, List.takeWhile_append_dropWhile]
      obtain ⟨hr, hw⟩ := List.append_inj hwhole (by
        rw [← h, List.length_append, List.length_cons])
      refine ⟨fun c hc ↦ ?_, .inr ⟨digits, _, hr, ?_, hall, fun c hc ↦ List.mem_takeWhile_imp hc⟩⟩
      · have hend := List.head?_dropWhile_not isDigit rest
        rw [← hw, hc] at hend
        exact hend
      · exact fun hnil ↦ hne (List.length_eq_zero_iff.2 hnil)
    next hrest =>
      split at hfraction
      next rest heq => exact absurd heq (hrest rest)
      next => exact absurd rfl hfraction

/-- A number ends at the same digit, with a fraction or without. -/
theorem numberTail_append (h : numberTail (r ++ w) = r.length)
    (hdigit : ∀ c, v.head? = some c → isDigit c = false)
    (hfractions : fractionTail w = 0 → fractionTail v = 0) : numberTail (r ++ v) = r.length := by
  obtain ⟨-, ⟨hr, hw⟩ | ⟨digits, fraction, rfl, hne, hdigits, hfraction⟩⟩ := numberTail_cases h
  · rw [numberTail, takeWhile_append_of_forall hr hdigit, dropWhile_append_of_forall hr hdigit,
      hfractions hw, Nat.add_zero]
  · have hpoint : ∀ c, ('.' :: (fraction ++ v)).head? = some c → isDigit c = false := by
      intro c hc
      obtain rfl := Option.some.inj hc
      rfl
    have hlength : fraction.length ≠ 0 := mt List.length_eq_zero_iff.1 hne
    rw [List.append_assoc, List.cons_append, numberTail, takeWhile_append_of_forall hdigits hpoint,
      dropWhile_append_of_forall hdigits hpoint, fractionTail,
      takeWhile_append_of_forall hfraction hdigit]
    simp only [hlength, if_false, List.length_append, List.length_cons]

/-- What begins with a digit is a number. -/
theorem otherHead_of_isDigit (h : isDigit c = true) (rest : List Char) :
    otherHead c rest = (.token .numberLiteral, numberTail rest) := by
  have hdigits := toNat_of_isDigit h
  have hsign : ∀ d : Char, 57 < d.toNat ∨ d.toNat < 48 → c ≠ d := by
    rintro d hd rfl
    omega
  rw [otherHead, isBlank_of_isDigit h, h]
  simp [hsign '#' (by decide), hsign '/' (by decide)]

end

end Lexeme

end BslLint
