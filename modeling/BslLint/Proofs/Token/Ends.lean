import BslLint.Proofs.Token.Heads

/-!
# What comes behind a piece

A lexeme is the longest piece that fits, so what it is depends on the text behind it. It does not
depend on much of it: a piece stays what it is if the text breaks off behind it, if the same
character follows, or if a delimiter does and the piece is no trivia (`Ends`, `otherHead_congr`).
Only pieces of unknown text, such as a string without its last quote, may turn into something else.

So a text may be taken out of another (`head_of_append`), and it may go on behind a delimiter
(`head_append`).
-/

namespace BslLint

open Text (isDigit)

namespace Lexeme

variable {c : Char} {r u v w : List Char} {k : Class}

/-- What comes behind a piece in one text, `v`, ends it as well as what does in another text, `w`.
-/
structure Ends (k : Class) (w v : List Char) : Prop where
  /-- Nothing comes, or the same character, or a delimiter that is not part of trivia. -/
  next : v = [] ∨ v.head? = w.head? ∨ k ≠ .trivia ∧ Delimits v
  /-- Where a number had no fraction, it gets none. -/
  fraction : fractionTail w = 0 → fractionTail v = 0

/-- Delimiters are none of the characters that words and numbers are made of. -/
theorem Ends.stops {p : Char → Bool} (h : Ends k w v)
    (hp : k ≠ .trivia → ∀ c ∈ delimiters, p c = false)
    (hw : ∀ c, w.head? = some c → p c = false) : ∀ c, v.head? = some c → p c = false := by
  intro c hc
  obtain rfl | hsame | ⟨hk, hdelimits⟩ := h.next
  · exact nomatch hc
  · exact hw c (hsame ▸ hc)
  · exact hp hk c (hdelimits.mem_delimiters c hc)

/-- A run of characters is as long. -/
theorem Ends.length_takeWhile {p : Char → Bool} (h : Ends k w v)
    (hp : k ≠ .trivia → ∀ c ∈ delimiters, p c = false)
    (hr : ((r ++ w).takeWhile p).length = r.length) :
    ((r ++ v).takeWhile p).length = r.length := by
  rw [takeWhile_append_of_forall (forall_of_length_takeWhile hr)
    (h.stops hp (head_takeWhile_eq_false hr))]

/-! ### One class of pieces at a time -/

/-- A sign has two characters at most, so no more than the next one matters. -/
theorem signHead_of_head? {s t : List Char} (h : s.head? = t.head?) :
    signHead c s = signHead c t := by
  rcases s with - | ⟨d, s⟩ <;> rcases t with - | ⟨e, t⟩
  · rfl
  · exact nomatch h
  · exact nomatch h
  · obtain rfl := Option.some.inj h
    unfold signHead
    split <;> simp_all

/-- Two characters are one sign only if the second of them is a sign of relation. -/
theorem signHead_of_ne {s : List Char} (h : ∀ d, s.head? = some d → d ≠ '>' ∧ d ≠ '=') :
    signHead c s = signHead c [] := by
  rcases s with - | ⟨d, s⟩
  · rfl
  · obtain ⟨hgreater, hequal⟩ := h d rfl
    unfold signHead
    split <;> simp_all

/-- A sign of one character is one without anything behind it. -/
theorem signHead_nil {s : List Char} (h : signHead c s = (k, 0)) : signHead c [] = (k, 0) := by
  unfold signHead at h
  split at h <;> cases h <;> try rfl
  unfold signHead
  split <;> simp_all

/-- So a sign ends where it did, -/
theorem signHead_congr (h : signHead c (r ++ w) = (k, r.length)) (hends : Ends k w v) :
    signHead c (r ++ v) = (k, r.length) := by
  rcases r with - | ⟨d, r⟩
  · obtain rfl | hsame | ⟨-, hdelimits⟩ := hends.next
    · exact signHead_nil h
    · exact (signHead_of_head? hsame).trans h
    · have hplain : ∀ c ∈ delimiters, c ≠ '>' ∧ c ≠ '=' := by simp [delimiters]
      exact (signHead_of_ne fun d hd ↦ hplain d (hdelimits.mem_delimiters d hd)).trans
        (signHead_nil h)
  · have hsame : (d :: r ++ v).head? = (d :: r ++ w).head? := rfl
    exact (signHead_of_head? hsame).trans h

/-- an annotation and a line for the preprocessor do, -/
theorem directiveHead_congr (h : directiveHead (r ++ w) = (k, r.length)) (hk : k ≠ .unknown)
    (hends : Ends k w v) : directiveHead (r ++ v) = (k, r.length) := by
  rcases r with - | ⟨d, r⟩
  · -- an annotation has a name
    exfalso
    unfold directiveHead at h
    split at h
    next d rest heq =>
      split at h
      next hd =>
        have hlength : ((([] : List Char) ++ w).takeWhile isNameChar).length = 0 :=
          congrArg Prod.snd h
        rw [heq, List.takeWhile_cons, if_pos (by rw [isNameChar, hd, Bool.true_or])] at hlength
        exact Nat.succ_ne_zero _ hlength
      next => exact hk (congrArg Prod.fst h).symm
    next => exact hk (congrArg Prod.fst h).symm
  · show (if isLetter d then _ else _) = _
    replace h : (if isLetter d then (Class.token .directive,
        ((d :: r ++ w).takeWhile isNameChar).length) else (.unknown, 0)) =
          (k, (d :: r).length) := h
    split at h
    next hd =>
      have hlength := hends.length_takeWhile (fun _ ↦ eq_false_of_mem_delimiters (by decide))
        (congrArg Prod.snd h)
      rw [if_pos hd]
      obtain rfl : Class.token .directive = k := congrArg Prod.fst h
      rw [hlength]
    next => exact absurd (congrArg Prod.fst h).symm hk

/-- and so does a string, unless its last quote was missing. -/
theorem stringHead_congr (h : stringHead (r ++ w) = (k, r.length)) (hk : k ≠ .unknown)
    (hends : Ends k w v) : stringHead (r ++ v) = (k, r.length) := by
  rw [stringHead] at h
  split at h
  next n hn =>
    obtain ⟨rfl, rfl⟩ := Prod.mk.inj h
    obtain ⟨hquote, hall⟩ := stringTail?_append hn
    have hquote' : ∀ c, v.head? = some c → (c == '"') = false :=
      hends.stops (fun _ ↦ eq_false_of_mem_delimiters (by decide)) fun c hc ↦
        beq_eq_false_iff_ne.2 fun hcq ↦ hquote (hcq ▸ hc)
    rw [stringHead, hall v fun hv ↦ beq_eq_false_iff_ne.1 (hquote' _ hv) rfl]
  next => exact absurd (congrArg Prod.fst h).symm hk

/-- One slash divides, and two begin a comment. -/
theorem otherHead_slash (rest : List Char) : otherHead '/' rest =
    if rest.head? = some '/' then (.trivia, (rest.takeWhile (!isLineEnd ·)).length)
    else (.token .divide, 0) := by
  cases rest with
  | nil => rfl
  | cons d rest => simp [otherHead, isBlank, isDigit, signHead]

/-- A comment reaches to the end of its line, and no delimiter may follow it. -/
theorem otherHead_slash_congr (h : otherHead '/' (r ++ w) = (k, r.length)) (hends : Ends k w v) :
    otherHead '/' (r ++ v) = (k, r.length) := by
  rw [otherHead_slash] at h ⊢
  split at h
  next hcomment =>
    obtain rfl : Class.trivia = k := congrArg Prod.fst h
    have hn := congrArg Prod.snd h
    rcases r with - | ⟨d, r⟩
    · -- the second slash belongs to the comment
      rcases w with - | ⟨d, w⟩
      · exact nomatch hcomment
      · obtain rfl : d = '/' := Option.some.inj hcomment
        exact nomatch hn
    · have hcomment' : (d :: r ++ v).head? = some '/' := hcomment
      rw [if_pos hcomment', hends.length_takeWhile (fun hk ↦ absurd rfl hk) hn]
  next hsign =>
    obtain rfl := List.length_eq_zero_iff.1 (congrArg Prod.snd h).symm
    have hsign' : ∀ c, v.head? = some c → (c == '/') = false :=
      hends.stops (fun _ ↦ eq_false_of_mem_delimiters (by decide)) fun c hc ↦
        beq_eq_false_iff_ne.2 fun hcs ↦ hsign (hcs ▸ hc)
    exact (if_neg fun hv ↦ beq_eq_false_iff_ne.1 (hsign' _ hv) rfl).trans h

/-- **A piece that does not begin with a letter is told by little of what is behind it.** -/
theorem otherHead_congr (h : otherHead c (r ++ w) = (k, r.length)) (hk : k ≠ .unknown)
    (hends : Ends k w v) : otherHead c (r ++ v) = (k, r.length) := by
  by_cases hblank : isBlank c = true
  · rw [otherHead, if_pos hblank] at h ⊢
    obtain rfl : Class.trivia = k := congrArg Prod.fst h
    rw [hends.length_takeWhile (fun hk ↦ absurd rfl hk) (congrArg Prod.snd h)]
  by_cases hsharp : c = '#'
  · subst hsharp
    replace h : (Class.trivia, ((r ++ w).takeWhile (!isLineEnd ·)).length) = (k, r.length) := h
    obtain rfl : Class.trivia = k := congrArg Prod.fst h
    show (Class.trivia, ((r ++ v).takeWhile (!isLineEnd ·)).length) = _
    rw [hends.length_takeWhile (fun hk ↦ absurd rfl hk) (congrArg Prod.snd h)]
  by_cases hslash : c = '/'
  · subst hslash
    exact otherHead_slash_congr h hends
  by_cases hdigit : isDigit c = true
  · rw [otherHead_of_isDigit hdigit] at h ⊢
    have hn : numberTail (r ++ w) = r.length := congrArg Prod.snd h
    have hdigits : ∀ c ∈ delimiters, isDigit c = false := eq_false_of_mem_delimiters (by decide)
    rw [numberTail_append hn (hends.stops (fun _ ↦ hdigits) (numberTail_cases hn).1) hends.fraction]
    exact congrArg (·, r.length) (congrArg Prod.fst h)
  -- All other pieces are told by their first character.
  have hplain : ∀ rest, otherHead c rest = if c = '"' then stringHead rest
      else if c = '\'' then dateHead rest
      else if c = '&' then directiveHead rest else signHead c rest := fun rest ↦ by
    rw [otherHead, if_neg hblank, if_neg (by simp [hsharp, hslash]), if_neg hdigit]
  rw [hplain] at h ⊢
  split at h
  next hquote =>
    rw [if_pos hquote]
    exact stringHead_congr h hk hends
  next hquote =>
    rw [if_neg hquote]
    split at h
    next hdate =>
      rw [if_pos hdate]
      obtain rfl | ⟨rfl, -⟩ := dateHead_cases h
      · exact absurd rfl hk
      · exact dateHead_append h v
    next hdate =>
      rw [if_neg hdate]
      split at h
      next hsign =>
        rw [if_pos hsign]
        exact directiveHead_congr h hk hends
      next hsign =>
        rw [if_neg hsign]
        exact signHead_congr h hends

/-- A piece is the same if in addition the same words can be read from its front. -/
theorem head_congr (h : head c (r ++ w) = (k, r.length)) (hk : k ≠ .unknown) (hends : Ends k w v)
    (hword : Keyword.longest? (c :: (r ++ v)) = Keyword.longest? (c :: (r ++ w)))
    (hname : nameLength (c :: (r ++ v)) = nameLength (c :: (r ++ w))) :
    head c (r ++ v) = (k, r.length) := by
  rw [head] at h ⊢
  rw [hword, hname]
  split
  next word n hfound =>
    rw [hfound] at h
    exact h
  next hfound =>
    rw [hfound] at h
    simp only at h
    split
    next hrun =>
      rw [if_pos hrun] at h
      exact otherHead_congr h hk hends
    next hrun =>
      rw [if_neg hrun] at h
      exact h

/-! ### Texts that break off -/

/-- A run that ended within a piece ends there still. -/
theorem takeWhile_of_append {p : Char → Bool}
    (h : ((r ++ (v ++ u)).takeWhile p).length ≤ r.length) :
    (r ++ v).takeWhile p = (r ++ (v ++ u)).takeWhile p := by
  rw [List.takeWhile_append] at h
  rw [List.takeWhile_append, @List.takeWhile_append _ p r]
  split at h
  next hall =>
    -- The run fills the piece and ends there, so it ends there too if less follows.
    have hlong : (v ++ u).takeWhile p = [] := by
      rw [List.length_append] at h
      exact List.length_eq_zero_iff.1 (by omega)
    have hshort : v.takeWhile p = [] := by
      cases v with
      | nil => rfl
      | cons d v =>
        rw [List.cons_append, List.takeWhile_cons] at hlong
        rw [List.takeWhile_cons]
        split at hlong
        next => exact nomatch hlong
        next hd => exact if_neg hd
    rw [if_pos hall, if_pos hall, hlong, hshort]
  next hpart => rw [if_neg hpart, if_neg hpart]

/-- Where there was no fraction, there is none in what is left. -/
theorem fractionTail_of_append (h : fractionTail (v ++ u) = 0) : fractionTail v = 0 := by
  unfold fractionTail
  split
  next rest =>
    have hnone : (rest ++ u).takeWhile isDigit = [] := by
      by_contra hne
      rw [List.cons_append, fractionTail] at h
      simp only [List.length_eq_zero_iff, hne, if_false] at h
      exact Nat.succ_ne_zero _ h
    have hshort := takeWhile_of_append (r := []) (v := rest) (u := u) (p := isDigit)
      (Nat.le_of_eq (congrArg List.length hnone))
    rw [List.nil_append, List.nil_append, hnone] at hshort
    rw [hshort]
    rfl
  · rfl

/-- A name that ended within a piece has its length, -/
theorem nameLength_of_append (h : nameLength (c :: (r ++ (v ++ u))) ≤ r.length + 1) :
    nameLength (c :: (r ++ v)) = nameLength (c :: (r ++ (v ++ u))) := by
  rw [nameLength] at h
  rw [nameLength, nameLength]
  split
  next hc =>
    rw [if_pos hc] at h
    rw [takeWhile_of_append (Nat.le_of_succ_le_succ h)]
  next => rfl

end Lexeme

/-- and no other word is found at its front. -/
theorem Keyword.longest?_of_append {r u v : List Char}
    (h : ∀ a, longest? (r ++ (v ++ u)) = some a → a.2 ≤ r.length) :
    longest? (r ++ v) = longest? (r ++ (v ++ u)) := by
  have hshort : ∀ a, longest? (r ++ v) = some a → a.2 ≤ r.length := by
    intro a ha
    obtain ⟨p, hp, hbegins, hlength⟩ := exists_begins_of_longest? ha
    rw [← begins_append (length_le_of_begins hbegins) u, List.append_assoc] at hbegins
    obtain ⟨b, hb, hle⟩ := reaches_longest? hp hbegins
    rw [hlength]
    exact Nat.le_trans hle (h b hb)
  rw [longest?_append h, longest?_append hshort]

namespace Lexeme

variable {c : Char} {r u v w : List Char} {k : Class}

/-- **What a piece is does not change when the text breaks off behind it**, sooner or later. -/
theorem head_of_append (h : head c (r ++ (v ++ u)) = (k, r.length)) (hk : k ≠ .unknown) :
    head c (r ++ v) = (k, r.length) := by
  -- Neither a name nor a keyword that is longer can begin here.
  have hreach : nameLength (c :: (r ++ (v ++ u))) ≤ r.length + 1 ∧
      ∀ a, Keyword.longest? (c :: r ++ (v ++ u)) = some a → a.2 ≤ (c :: r).length := by
    rw [head] at h
    show _ ∧ ∀ a, Keyword.longest? (c :: (r ++ (v ++ u))) = some a → _
    split at h
    next word n hfound =>
      rw [hfound]
      have hle : n ≤ r.length + 1 ∧ nameLength (c :: (r ++ (v ++ u))) ≤ r.length + 1 := by
        split at h
        · have hn : n - 1 = r.length := congrArg Prod.snd h
          omega
        · have hn : nameLength (c :: (r ++ (v ++ u))) - 1 = r.length := congrArg Prod.snd h
          omega
      exact ⟨hle.2, fun a ha ↦ Option.some.inj ha ▸ hle.1⟩
    next hfound =>
      rw [hfound]
      refine ⟨?_, by rintro a ⟨⟩⟩
      split at h
      · omega
      · have hn : nameLength (c :: (r ++ (v ++ u))) - 1 = r.length := congrArg Prod.snd h
        omega
  have hends : Ends k (v ++ u) v := by
    refine ⟨?_, fractionTail_of_append⟩
    cases v with
    | nil => exact .inl rfl
    | cons d v => exact .inr (.inl rfl)
  exact head_congr h hk hends (Keyword.longest?_of_append hreach.2) (nameLength_of_append hreach.1)

/-! ### Texts that go on -/

/-- A delimiter does not make a fraction, unless it is a dot in front of a digit. -/
theorem fractionTail_append (h : fractionTail w = 0) (hv : Delimits v) :
    fractionTail (w ++ v) = 0 := by
  rcases w with - | ⟨d, w⟩
  · exact hv.fractionTail_eq
  · unfold fractionTail at h ⊢
    split at h
    next rest heq =>
      obtain ⟨rfl, rfl⟩ := List.cons.inj heq
      simp only [List.cons_append]
      rw [takeWhile_append_of_head hv.isDigit_eq_false]
      exact h
    next hdot =>
      split
      next rest heq =>
        obtain ⟨rfl, -⟩ := List.cons.inj heq
        exact absurd rfl (hdot w)
      next => rfl

/-- **What a piece is does not change when the text goes on with a delimiter**, unless it ends with
trivia. -/
theorem head_append (h : head c (r ++ w) = (k, r.length)) (hk : k ≠ .unknown)
    (hw : w = [] → k ≠ .trivia) (hv : Delimits v) : head c (r ++ (w ++ v)) = (k, r.length) := by
  have hends : Ends k w (w ++ v) := by
    refine ⟨?_, fun h ↦ fractionTail_append h hv⟩
    cases w with
    | nil => exact .inr (.inr ⟨hw rfl, hv⟩)
    | cons d w => exact .inr (.inl rfl)
  refine head_congr h hk hends ?_ ?_
  · rw [← List.append_assoc, ← List.cons_append]
    exact Keyword.longest?_congr fun p hp ↦ Keyword.begins_append_of_notMem (hv.notMem_spelling hp)
  · rw [← List.append_assoc, nameLength, nameLength,
      takeWhile_append_of_head hv.isNameChar_eq_false]

end Lexeme

end BslLint
