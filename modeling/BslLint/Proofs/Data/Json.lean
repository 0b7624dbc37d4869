import BslLint.Data.Json.Reader
import BslLint.Proofs.Data.Runs
import BslLint.Proofs.Text.Number

/-!
# JSON is read as it was written

`Json.quote` and `Json.Reader.stringBody?` are inverse to each other in one direction: whatever
characters a string has, the reader finds the end of its written form and gets the string back, no
matter what follows (`stringBody?_flatMap_escape`). So a written string never runs into what stands
behind it (`quote_append_inj`), and texts can be told apart that are put together from written
strings without any white space.

The same holds of values, except that a number would swallow digits behind it. `Reader.Spells` says
that a text is read as some value wherever no number goes on; there is one lemma for each kind of
value. A plain value, one without fractions and nested no deeper than the reader goes, is therefore
read from what is written for it (`read?_pretty`).
-/

namespace BslLint.Json

/-! ### Strings -/

/-- A control character that has no letter is written by its number. -/
theorem unit?_hexDigit {n : Nat} (h : n < 32) :
    Reader.unit? '0' '0' (hexDigit (n / 16)) (hexDigit (n % 16)) = some n := by
  decide +revert

/-- The written form of a character is read as this character. -/
theorem stringBody?_escape (c : Char) (rest : List Char) :
    Reader.stringBody? (escape c ++ rest) =
      (Reader.stringBody? rest).map fun (cs, rest) ↦ (c :: cs, rest) := by
  fun_cases escape c with
  | case8 _ _ _ _ _ _ _ _ hcontrol =>
    have hnosurrogate : ¬0xD800 ≤ c.toNat := by omega
    have hnolow : ¬0xDC00 ≤ c.toNat := by omega
    simp only [List.cons_append, List.nil_append]
    rw [Reader.stringBody?, unit?_hexDigit hcontrol]
    simp only [Option.bind_eq_bind, Option.bind_some, hnosurrogate, hnolow, decide_false,
      Bool.false_and, Bool.false_eq_true, if_false, Char.ofNat_toNat]
    cases Reader.stringBody? rest <;> rfl
  | case9 _ hquote hslash _ _ _ _ _ hcontrol =>
    rw [List.singleton_append, Reader.stringBody?, if_neg hcontrol]
    · cases Reader.stringBody? rest <;> rfl
    · exact hquote
    -- no other way of reading begins with this character
    all_goals intros; exact hslash ‹_›
  | _ =>
    simp only [List.cons_append, List.nil_append]
    rw [Reader.stringBody?]
    cases Reader.stringBody? rest <;> rfl

/-- **The written form of a string is read as this string**, up to its closing quote. -/
theorem stringBody?_flatMap_escape (cs rest : List Char) :
    Reader.stringBody? (cs.flatMap escape ++ '"' :: rest) = some (cs, rest) := by
  induction cs with
  | nil => rw [List.flatMap_nil, List.nil_append, Reader.stringBody?]
  | cons c cs ih =>
    rw [List.flatMap_cons, List.append_assoc, stringBody?_escape, ih, Option.map_some]

/-- Two written strings that begin one text are the same, and so is what follows them. -/
theorem quote_append_inj {s t : String} {r u : List Char}
    (h : (quote s).toList ++ r = (quote t).toList ++ u) : s = t ∧ r = u := by
  have hbody : s.toList.flatMap escape ++ '"' :: r = t.toList.flatMap escape ++ '"' :: u := by
    simpa [quote] using h
  have hread := congrArg Reader.stringBody? hbody
  rw [stringBody?_flatMap_escape, stringBody?_flatMap_escape, Option.some.injEq,
    Prod.mk.injEq] at hread
  exact ⟨String.toList_injective hread.1, hread.2⟩

/-! ### Whole numbers -/

namespace Reader

/-- Digits are taken into the number as long as it fits into a word, and here all of them are. -/
theorem accumulate_of_le {start : Nat} {ds : List Char}
    (h : Nat.ofDigitChars 10 ds start ≤ maxWord) :
    accumulate start ds = (Nat.ofDigitChars 10 ds start, 0) := by
  induction ds generalizing start with
  | nil => rfl
  | cons c ds ih =>
    rw [Nat.ofDigitChars_cons] at h
    -- More digits only make the number larger, so what was read up to here fits as well.
    have hle : 10 * start + (c.toNat - '0'.toNat) ≤ maxWord := by
      rw [Nat.ofDigitChars_eq_ofDigitChars_zero] at h
      have hpow : 1 ≤ 10 ^ ds.length := Nat.one_le_pow _ _ (by decide)
      have hmul := Nat.mul_le_mul_right (10 * start + (c.toNat - '0'.toNat)) hpow
      rw [Nat.one_mul] at hmul
      exact Nat.le_trans hmul (Nat.le_trans (Nat.le_add_right _ _) h)
    have hstep : accumulate start (c :: ds) =
        accumulate (10 * start + (c.toNat - '0'.toNat)) ds := by
      rw [accumulate, List.foldl_cons]
      simp only [Nat.lt_irrefl, if_false, Nat.mul_comm start 10]
      rw [if_neg (show ¬maxWord < 10 * start + (c.toNat - 48) from Nat.not_lt.2 hle)]
      rfl
    rw [hstep, ih h]
    rfl

/-- Whether a character behind a whole number belongs to the number. -/
def continuesNumber (c : Char) : Bool := Text.isDigit c || c == '.' || c == 'e' || c == 'E'

/-- A text that does not go on with a number. -/
def EndsNumber (rest : List Char) : Prop := ∀ c, rest.head? = some c → continuesNumber c = false

variable {rest : List Char}

/-- The digits of a number end where nothing goes on with it. -/
theorem EndsNumber.digits_append (h : EndsNumber rest) {ds : List Char}
    (hds : ∀ c ∈ ds, Text.isDigit c = true) : digits (ds ++ rest) = (ds, rest) := by
  refine span_append_of_forall hds fun c hc ↦ ?_
  have hends := h c hc
  simp only [continuesNumber, Bool.or_eq_false_iff] at hends
  exact hends.1.1.1

/-- Nor does a fraction follow, -/
theorem EndsNumber.fraction?_eq (h : EndsNumber rest) :
    fraction? rest = some (([], false), rest) := by
  unfold fraction?
  split
  next => exact absurd (h '.' rfl) (by decide)
  next => rfl

/-- nor an exponent. -/
theorem EndsNumber.exponent?_eq (h : EndsNumber rest) :
    exponent? rest = some ((false, 0, false), rest) := by
  unfold exponent?
  split
  next c _ =>
    refine if_neg fun hmark ↦ ?_
    have hends := h c rfl
    rw [Bool.or_eq_true, decide_eq_true_iff, decide_eq_true_iff] at hmark
    obtain rfl | rfl := hmark <;> exact absurd hends (by decide)
  next => rfl

/-- A whole number has no zero in front of other digits. -/
theorem not_leadingZero (n : Nat) :
    ¬((Nat.toDigits 10 n).head? = some '0' ∧ 1 < (Nat.toDigits 10 n).length) := by
  rintro ⟨hhead, hlength⟩
  obtain ⟨ds, hds⟩ := List.head?_eq_some_iff.1 hhead
  rw [hds, Text.eq_nil_of_toDigits_eq_cons hds] at hlength
  exact Nat.lt_irrefl _ hlength

/-- The sign and the digits of a whole number that fits into a word make up the number. -/
theorem assemble?_toDigits {n : Int} (hlow : -0x8000000000000000 ≤ n) (hhigh : n ≤ maxWord) :
    assemble? (decide (n < 0)) (Nat.toDigits 10 n.natAbs) [] false (false, 0, false) =
      some (.int n) := by
  have hvalue : accumulate 0 (Nat.toDigits 10 n.natAbs) = (n.natAbs, 0) := by
    rw [accumulate_of_le] <;> rw [Nat.ofDigitChars_ten_toDigits]
    rw [maxWord] at hhigh ⊢
    omega
  unfold assemble?
  rw [hvalue]
  simp only [Bool.not_false, Bool.and_self, decide_true, if_true, Bool.not_eq_true',
    decide_eq_false_iff_not]
  split
  next h => rw [show (n.natAbs : Int) = n by omega]
  next h =>
    rw [if_neg (show n.natAbs ≠ 0 by omega), if_pos (show n.natAbs ≤ 0x8000000000000000 by omega),
      show -(n.natAbs : Int) = n by omega]

/-- A number without a sign does not begin with one. -/
theorem toDigits_append_ne_minus (n : Nat) (rest cs : List Char) :
    Nat.toDigits 10 n ++ rest ≠ '-' :: cs := by
  obtain ⟨d, ds, hds⟩ := List.exists_cons_of_ne_nil (Nat.toDigits_ne_nil (b := 10) (n := n))
  have hd := Text.isDigit_of_mem_toDigits (hds ▸ List.mem_cons_self)
  rw [hds, List.cons_append]
  intro h
  rw [(List.cons.inj h).1] at hd
  exact absurd hd (by decide)

/-- **A whole number is read as it was written**, if it fits into a word. -/
theorem number?_int {n : Int} (hlow : -0x8000000000000000 ≤ n) (hhigh : n ≤ maxWord)
    (hrest : EndsNumber rest) : number? ((toString n).toList ++ rest) = some (.int n, rest) := by
  have hdigits : digits (Nat.toDigits 10 n.natAbs ++ rest) = (Nat.toDigits 10 n.natAbs, rest) :=
    hrest.digits_append fun _ ↦ Text.isDigit_of_mem_toDigits
  have hne : (Nat.toDigits 10 n.natAbs).isEmpty = false := by simp
  have hassemble := assemble?_toDigits hlow hhigh
  rw [Text.toList_toString_int]
  by_cases hn : n < 0
  · rw [decide_eq_true hn] at hassemble
    rw [if_pos hn, List.cons_append, number?]
    simp only [hdigits]
    simp [hne, not_leadingZero, hrest.fraction?_eq, hrest.exponent?_eq, hassemble]
  · rw [decide_eq_false hn] at hassemble
    rw [if_neg hn, number?]
    · simp only [hdigits]
      simp [hne, not_leadingZero, hrest.fraction?_eq, hrest.exponent?_eq, hassemble]
    · exact fun cs h ↦ toDigits_append_ne_minus _ _ _ h

/-! ### Items and members -/

/-- A text that a reader takes for a value with at most so many levels, whatever follows, unless
that goes on with a number. -/
structure Spells (depth : Nat) (text : List Char) (v : Json) : Prop where
  front : ∃ c, text.head? = some c ∧ isBlank c = false ∧ c ≠ ']'
  reads : ∀ fuel rest, 2 * text.length ≤ fuel → EndsNumber rest →
    value? fuel depth (text ++ rest) = some (v, rest)

variable {depth : Nat} {gap close : List Char}

/-- A value is told by its first character. -/
theorem Spells.of_cons {c : Char} {cs : List Char} {v : Json} (hblank : isBlank c = false)
    (hc : c ≠ ']') (h : ∀ fuel rest, 2 * cs.length + 1 ≤ fuel → EndsNumber rest →
      value? (fuel + 1) depth (c :: (cs ++ rest)) = some (v, rest)) : Spells depth (c :: cs) v := by
  refine ⟨⟨c, rfl, hblank, hc⟩, fun fuel rest hfuel hrest ↦ ?_⟩
  rw [List.length_cons] at hfuel
  obtain ⟨fuel, rfl⟩ : ∃ k, fuel = k + 1 := ⟨fuel - 1, by omega⟩
  exact h fuel rest (by omega) hrest

theorem skipBlank_mark {mark : Char} (hmark : isBlank mark = false) :
    skipBlank (mark :: rest) = mark :: rest := by
  rw [skipBlank, List.dropWhile_cons, hmark]
  rfl

/-- Blanks are skipped up to a mark, -/
theorem skipBlank_append_mark (hgap : ∀ c ∈ gap, isBlank c = true) {mark : Char}
    (hmark : isBlank mark = false) : skipBlank (gap ++ mark :: rest) = mark :: rest :=
  dropWhile_append_of_forall hgap fun _ hc ↦ Option.some.inj hc ▸ hmark

/-- or up to a value. -/
theorem Spells.skipBlank_append {text : List Char} {v : Json} (h : Spells depth text v)
    (hgap : ∀ c ∈ gap, isBlank c = true) : skipBlank (gap ++ (text ++ rest)) = text ++ rest := by
  obtain ⟨c, hc, hblank, -⟩ := h.front
  obtain ⟨cs, rfl⟩ := List.head?_eq_some_iff.1 hc
  exact skipBlank_append_mark hgap hblank

theorem Spells.skipBlank_space {text : List Char} {v : Json} (h : Spells depth text v) :
    skipBlank (' ' :: (text ++ rest)) = text ++ rest :=
  h.skipBlank_append fun c hc ↦ by rw [List.mem_singleton.1 (show c ∈ [' '] from hc)]; rfl

/-- A mark that does not continue a number ends one, whatever follows. -/
theorem EndsNumber.of_mark {mark : Char} (h : continuesNumber mark = false) :
    EndsNumber (mark :: rest) :=
  fun _ hc ↦ Option.some.inj hc ▸ h

/-- Blanks end a number, whatever mark comes behind them. -/
theorem EndsNumber.of_blank (hgap : ∀ c ∈ gap, isBlank c = true) {mark : Char}
    (hmark : continuesNumber mark = false) : EndsNumber (gap ++ mark :: rest) := by
  cases gap with
  | nil => exact .of_mark hmark
  | cons d gap =>
    have hblank := hgap d List.mem_cons_self
    simp only [isBlank, Bool.or_eq_true, beq_iff_eq] at hblank
    refine .of_mark ?_
    obtain ((rfl | rfl) | rfl) | rfl := hblank <;> rfl

/-- **Items are read as they were written**, if each of them is. -/
theorem items?_intercalate (fuel : Nat) (rest : List Char) {write : Json → List Char} {v : Json}
    {vs : List Json} (h : ∀ w ∈ v :: vs, Spells depth (write w) w)
    (hgap : ∀ c ∈ gap, isBlank c = true)
    (hclose : ∀ c ∈ close, isBlank c = true)
    (hfuel : 2 * ((',' :: gap).intercalate ((v :: vs).map write)).length + 1 ≤ fuel) :
    items? fuel depth ((',' :: gap).intercalate ((v :: vs).map write) ++ (close ++ ']' :: rest)) =
      some (v :: vs, rest) := by
  obtain ⟨fuel, rfl⟩ : ∃ k, fuel = k + 1 := ⟨fuel - 1, by omega⟩
  have hv := h v List.mem_cons_self
  -- The induction is on the items behind the first, because only they have a comma in front.
  induction vs generalizing v fuel with
  | nil =>
    rw [List.map_singleton, List.intercalate_singleton] at hfuel ⊢
    rw [items?, hv.reads _ _ (by omega) (.of_blank hclose (by decide))]
    simp [skipBlank_append_mark hclose (show isBlank ']' = false by decide)]
  | cons w ws ih =>
    have hw := h w (by simp)
    rw [List.map_cons, List.map_cons, List.intercalate_cons_cons, ← List.map_cons] at hfuel ⊢
    rw [List.length_append, List.length_append, List.length_cons] at hfuel
    obtain ⟨fuel, rfl⟩ : ∃ k, fuel = k + 1 := ⟨fuel - 1, by omega⟩
    have htail := ih (fun x hx ↦ h x (List.mem_cons_of_mem _ hx)) fuel (by omega) hw
    obtain ⟨tail, ht⟩ := exists_intercalate_cons (',' :: gap) (write w) (ws.map write)
    rw [List.map_cons, ht, List.append_assoc] at htail
    have hread := hv.reads (fuel + 1)
      (',' :: (gap ++ (write w ++ (tail ++ (close ++ ']' :: rest))))) (by omega)
      (.of_mark (by decide))
    rw [List.map_cons, ht, items?]
    simp only [List.append_assoc, List.cons_append]
    rw [hread]
    simp [skipBlank_mark (show isBlank ',' = false by decide), hw.skipBlank_append hgap, htail]

theorem toList_quote_append (s : String) (rest : List Char) :
    (quote s).toList ++ rest = '"' :: (s.toList.flatMap escape ++ '"' :: rest) := by
  simp [quote]

/-- A member of an object, with a value that is written somehow. -/
def memberText (write : Json → List Char) (m : String × Json) : List Char :=
  (quote m.1).toList ++ ':' :: ' ' :: write m.2

theorem memberText_append (write : Json → List Char) (m : String × Json) (rest : List Char) :
    memberText write m ++ rest =
      '"' :: (m.1.toList.flatMap escape ++ '"' :: ':' :: ' ' :: (write m.2 ++ rest)) := by
  rw [memberText, List.append_assoc, toList_quote_append]
  rfl

/-- A value is no longer than the member that it is in. -/
theorem length_le_memberText (write : Json → List Char) (m : String × Json) :
    (write m.2).length ≤ (memberText write m).length := by
  rw [memberText, List.length_append, List.length_cons, List.length_cons]
  omega

/-- **Members are read as they were written**, if the value of each is. -/
theorem members?_intercalate (fuel : Nat) (rest : List Char) {write : Json → List Char}
    {m : String × Json} {ms : List (String × Json)}
    (h : ∀ e ∈ m :: ms, Spells depth (write e.2) e.2)
    (hgap : ∀ c ∈ gap, isBlank c = true) (hclose : ∀ c ∈ close, isBlank c = true)
    (hfuel : 2 * ((',' :: gap).intercalate ((m :: ms).map (memberText write))).length + 1 ≤ fuel) :
    members? fuel depth ((',' :: gap).intercalate ((m :: ms).map (memberText write)) ++
      (close ++ '\x7d' :: rest)) = some (m :: ms, rest) := by
  obtain ⟨fuel, rfl⟩ : ∃ k, fuel = k + 1 := ⟨fuel - 1, by omega⟩
  have hm := h m List.mem_cons_self
  have hlength := length_le_memberText write m
  -- As for items: only the members behind the first have a comma in front.
  induction ms generalizing m fuel with
  | nil =>
    rw [List.map_singleton, List.intercalate_singleton] at hfuel ⊢
    rw [memberText_append, members?, stringBody?_flatMap_escape]
    have hread := hm.reads fuel (close ++ '\x7d' :: rest) (by omega)
      (.of_blank hclose (by decide))
    simp [skipBlank_mark (show isBlank ':' = false by decide),
      hm.skipBlank_space, hread,
      skipBlank_append_mark hclose (show isBlank '\x7d' = false by decide)]
  | cons e es ih =>
    rw [List.map_cons, List.map_cons, List.intercalate_cons_cons, ← List.map_cons] at hfuel ⊢
    rw [List.length_append, List.length_append, List.length_cons] at hfuel
    obtain ⟨fuel, rfl⟩ : ∃ k, fuel = k + 1 := ⟨fuel - 1, by omega⟩
    have htail := ih (fun x hx ↦ h x (List.mem_cons_of_mem _ hx)) fuel (by omega)
      (h e (by simp)) (length_le_memberText write e)
    obtain ⟨tail, ht⟩ := exists_intercalate_cons (',' :: gap) (memberText write e)
      (es.map (memberText write))
    rw [List.map_cons, ht, List.append_assoc] at htail
    have hread := hm.reads (fuel + 1)
      (',' :: (gap ++ (memberText write e ++ (tail ++ (close ++ '\x7d' :: rest))))) (by omega)
      (.of_mark (by decide))
    rw [List.map_cons, ht]
    simp only [List.append_assoc, List.cons_append]
    have hskip : skipBlank (gap ++ (memberText write e ++ (tail ++ (close ++ '\x7d' :: rest)))) =
        memberText write e ++ (tail ++ (close ++ '\x7d' :: rest)) := by
      rw [memberText_append]
      exact skipBlank_append_mark hgap (by decide)
    rw [memberText_append write m, members?, stringBody?_flatMap_escape]
    simp [skipBlank_mark (show isBlank ':' = false by decide),
      hm.skipBlank_space, hread,
      skipBlank_mark (show isBlank ',' = false by decide), hskip, htail]

/-! ### Values -/

/-- Whole numbers, strings, arrays and objects are read as they were written: numbers, -/
theorem Spells.int {n : Int} (hlow : -0x8000000000000000 ≤ n) (hhigh : n ≤ maxWord) :
    Spells depth (toString n).toList (.int n) := by
  obtain ⟨c, cs, htext, hc⟩ : ∃ c cs, (toString n).toList = c :: cs ∧
      (c = '-' ∨ Text.isDigit c = true) := by
    rw [Text.toList_toString_int]
    split
    · exact ⟨_, _, rfl, .inl rfl⟩
    · obtain ⟨d, ds, hds⟩ := List.exists_cons_of_ne_nil
        (Nat.toDigits_ne_nil (n := n.natAbs) (b := 10))
      exact ⟨d, ds, hds, .inr (Text.isDigit_of_mem_toDigits (hds ▸ List.mem_cons_self))⟩
  have hnever {d : Char} (hd : (d = '-' ∨ Text.isDigit d = true) → False) : c ≠ d :=
    fun h ↦ hd (h ▸ hc)
  rw [htext]
  refine .of_cons ?_ (hnever (by decide)) fun fuel rest _ hrest ↦ ?_
  · simp only [isBlank, Bool.or_eq_false_iff, beq_eq_false_iff_ne]
    exact ⟨⟨⟨hnever (by decide), hnever (by decide)⟩, hnever (by decide)⟩, hnever (by decide)⟩
  · have hread := number?_int hlow hhigh hrest
    rw [htext, List.cons_append] at hread
    -- no other way of reading begins with a sign or a digit
    rw [value?, hread] <;> exact fun _ h ↦ hnever (by decide) (List.cons.inj h).1

/-- strings, -/
theorem Spells.str {s : String} : Spells depth (quote s).toList (.str s) := by
  rw [← List.append_nil (quote s).toList, toList_quote_append]
  refine .of_cons (by decide) (by decide) fun fuel rest _ _ ↦ ?_
  rw [List.append_assoc, List.cons_append, value?, stringBody?_flatMap_escape]
  simp

/-- arrays, with blanks between their items, -/
theorem Spells.arr (write : Json → List Char) {v : Json} {vs : List Json}
    (h : ∀ w ∈ v :: vs, Spells depth (write w) w) (hgap : ∀ c ∈ gap, isBlank c = true)
    (hclose : ∀ c ∈ close, isBlank c = true) :
    Spells (depth + 1)
      ('[' :: (gap ++ ((',' :: gap).intercalate ((v :: vs).map write) ++ (close ++ [']']))))
      (.arr (v :: vs)) := by
  refine .of_cons (by decide) (by decide) fun fuel rest hfuel _ ↦ ?_
  simp only [List.length_append, List.length_cons, List.length_nil] at hfuel
  have hitems := items?_intercalate fuel rest h hgap hclose (by omega)
  obtain ⟨tail, ht⟩ := exists_intercalate_cons (',' :: gap) (write v) (vs.map write)
  have hv := h v List.mem_cons_self
  obtain ⟨c, hc, -, hbracket⟩ := hv.front
  obtain ⟨cs, hcs⟩ := List.head?_eq_some_iff.1 hc
  rw [List.map_cons, ht, List.append_assoc, hcs, List.cons_append] at hitems
  rw [List.map_cons, ht]
  simp only [List.append_assoc, List.cons_append, List.nil_append]
  rw [value?, hv.skipBlank_append hgap, hcs, List.cons_append]
  simp [hitems, hbracket]

/-- and objects, with blanks between their members. -/
theorem Spells.obj (write : Json → List Char) {m : String × Json} {ms : List (String × Json)}
    (h : ∀ e ∈ m :: ms, Spells depth (write e.2) e.2) (hgap : ∀ c ∈ gap, isBlank c = true)
    (hclose : ∀ c ∈ close, isBlank c = true) :
    Spells (depth + 1)
      ('\x7b' :: (gap ++ ((',' :: gap).intercalate ((m :: ms).map (memberText write)) ++
        (close ++ ['\x7d']))))
      (.obj (m :: ms)) := by
  refine .of_cons (by decide) (by decide) fun fuel rest hfuel _ ↦ ?_
  simp only [List.length_append, List.length_cons, List.length_nil] at hfuel
  have hmembers := members?_intercalate fuel rest h hgap hclose (by omega)
  obtain ⟨tail, ht⟩ := exists_intercalate_cons (',' :: gap) (memberText write m)
    (ms.map (memberText write))
  rw [List.map_cons, ht, List.append_assoc, memberText_append] at hmembers
  rw [List.map_cons, ht]
  simp only [List.append_assoc, List.cons_append, List.nil_append]
  rw [memberText_append, value?, skipBlank_append_mark hgap (by decide)]
  simp [hmembers]

end Reader

/-- A value without fractions, the numbers of which fit into 64 bits. It is nested at most so many
levels deep. -/
inductive IsPlain : Nat → Json → Prop
  | null {depth : Nat} : IsPlain depth .null
  | bool {depth : Nat} {b : Bool} : IsPlain depth (.bool b)
  | int {depth : Nat} {n : Int} (low : -0x8000000000000000 ≤ n) (high : n ≤ Reader.maxWord) :
    IsPlain depth (.int n)
  | str {depth : Nat} {s : String} : IsPlain depth (.str s)
  | arr {depth : Nat} {items : List Json} (h : ∀ v ∈ items, IsPlain depth v) :
    IsPlain (depth + 1) (.arr items)
  | obj {depth : Nat} {members : List (String × Json)} (h : ∀ m ∈ members, IsPlain depth m.2) :
    IsPlain (depth + 1) (.obj members)

namespace Reader

variable {digits : Float → String}

theorem prettyItems_eq_map (level : Nat) (vs : List Json) :
    prettyItems digits level vs = vs.map (pretty digits level) := by
  induction vs with
  | nil => rw [prettyItems, List.map_nil]
  | cons v vs ih => rw [prettyItems, ih, List.map_cons]

theorem map_toList_prettyMembers (level : Nat) (ms : List (String × Json)) :
    (prettyMembers digits level ms).map String.toList =
      ms.map (memberText fun v ↦ (pretty digits level v).toList) := by
  induction ms with
  | nil => rw [prettyMembers, List.map_nil, List.map_nil]
  | cons m ms ih =>
    rw [prettyMembers, List.map_cons, List.map_cons, ih, memberText]
    simp

/-- A new line and the blanks of its level are blanks. -/
theorem isBlank_of_mem_newLine {level : Nat} {c : Char} (h : c ∈ (newLine level).toList) :
    isBlank c = true := by
  rw [newLine, String.toList_ofList, List.mem_cons] at h
  obtain rfl | h := h
  · decide
  · rw [(List.mem_replicate.1 h).2]
    decide

/-- Plain values are read as they were written over several lines. -/
theorem spells_pretty {level : Nat} {v : Json} (h : IsPlain depth v) :
    Spells depth (pretty digits level v).toList v := by
  have hblank (level : Nat) : ∀ c ∈ (newLine level).toList, isBlank c = true :=
    fun _ ↦ isBlank_of_mem_newLine
  induction h generalizing level with
  | null =>
    rw [pretty]
    exact .of_cons (by decide) (by decide) fun _ _ _ _ ↦ rfl
  | @bool depth b =>
    rw [pretty]
    cases b <;> exact .of_cons (by decide) (by decide) fun _ _ _ _ ↦ rfl
  | int low high =>
    rw [pretty]
    exact .int low high
  | str =>
    rw [pretty]
    exact .str
  | @arr depth items _ ih =>
    -- An empty list is written without the line ends that stand between items.
    cases items with
    | nil =>
      rw [pretty]
      exact .of_cons (by decide) (by decide) fun _ _ _ _ ↦ rfl
    | cons v vs =>
      have harr := Spells.arr (fun w ↦ (pretty digits (level + 1) w).toList)
        (fun w hw ↦ ih w hw) (hblank (level + 1)) (hblank level)
      rw [pretty, prettyItems_eq_map]
      simpa [String.toList_intercalate, Function.comp_def] using harr
  | @obj depth members _ ih =>
    cases members with
    | nil =>
      rw [pretty]
      exact .of_cons (by decide) (by decide) fun _ _ _ _ ↦ rfl
    | cons m ms =>
      have hobj := Spells.obj (fun w ↦ (pretty digits (level + 1) w).toList)
        (fun e he ↦ ih e he) (hblank (level + 1)) (hblank level)
      rw [pretty]
      simpa [String.toList_intercalate, map_toList_prettyMembers] using hobj

end Reader

/-- **Plain values are read back.** What is written over several lines is read as the value it was
written for, if that is plain and no deeper nested than the reader allows. -/
theorem read?_pretty {digits : Float → String} {v : Json} (h : IsPlain 127 v) :
    read? (pretty digits 0 v) = some v := by
  have hv : Reader.Spells 127 (pretty digits 0 v).toList v := Reader.spells_pretty h
  obtain ⟨c, hc, hblank, -⟩ := hv.front
  obtain ⟨cs, hcs⟩ := List.head?_eq_some_iff.1 hc
  have hskip : Reader.skipBlank (pretty digits 0 v).toList = (pretty digits 0 v).toList := by
    rw [hcs, Reader.skipBlank_mark hblank]
  have hread := hv.reads (2 * (pretty digits 0 v).toList.length + 2) [] (by omega) nofun
  rw [List.append_nil] at hread
  rw [read?]
  simp only [hskip, hread]
  rfl

end BslLint.Json
