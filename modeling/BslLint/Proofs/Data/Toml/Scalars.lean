import BslLint.Data.Toml.Reader
import BslLint.Proofs.Data.Decimal
import BslLint.Proofs.Data.Runs
import BslLint.Proofs.Data.Toml.Regular

/-!
# Numbers and dates are read as they were written

The text of a number, a date or a truth value tells which of them it is: nothing but digits is an
integer, a point makes a float of it, and a line inside or colons make a date. Each of them is what
is read from its text (`IsScalar`), up to what may follow a value (`Reader.EndsValue`).
-/

namespace BslLint.Toml

open Text

/-! ### Digits -/

/-- Digits without underscores between them are all of the number. -/
theorem ungrouped?_of_digits {ds : List Char} (hne : ds ≠ []) (h : ∀ c ∈ ds, isDigit c = true) :
    ungrouped? isDigit ds = some ds := by
  induction ds with
  | nil => exact absurd rfl hne
  | cons c ds ih =>
    obtain ⟨hc, hds⟩ := List.forall_mem_cons.1 h
    cases ds with
    | nil => rw [ungrouped?, if_pos hc]
    | cons d ds =>
      rw [ungrouped?, if_pos hc, ih (List.cons_ne_nil _ _) hds]
      · rfl
      · exact nofun
      · rintro rest hd
        obtain rfl := (List.cons.inj hd).1
        exact absurd (hds _ List.mem_cons_self) (by decide)

/-- Nothing but digits and underscores is a number. -/
theorem isGrouped_of_ungrouped? {cs ds : List Char} (h : ungrouped? isDigit cs = some ds) :
    ∀ c ∈ cs, isGrouped c = true := by
  fun_induction ungrouped? isDigit cs generalizing ds with
  | case1 => exact nofun
  | case2 c hc => simp [isGrouped, hc]
  | case4 c rest hc ih =>
    obtain ⟨es, hes, -⟩ := Option.map_eq_some_iff.1 h
    simpa [isGrouped, hc] using ih hes
  | case6 c rest _ _ hc ih =>
    obtain ⟨es, hes, -⟩ := Option.map_eq_some_iff.1 h
    exact List.forall_mem_cons.2 ⟨by simp [isGrouped, hc], ih hes⟩
  | _ => exact nomatch h

/-- A single other character, and there is no number. -/
theorem whole?_eq_none {cs : List Char} {c : Char} (hc : c ∈ cs) (h : isGrouped c = false) :
    whole? cs = none := by
  rw [whole?]
  cases hds : ungrouped? isDigit cs with
  | none => rfl
  | some ds => exact absurd (isGrouped_of_ungrouped? hds c hc) (by simp [h])

/-- A number is read from its digits, if it does not begin with a zero for nothing. -/
theorem whole?_of_digits {ds : List Char} (hne : ds ≠ []) (h : ∀ c ∈ ds, isDigit c = true)
    (hzero : ds.head? = some '0' → ds = ['0']) : whole? ds = some ds := by
  have hneedless : hasNeedlessZero ds = false := by
    unfold hasNeedlessZero
    split
    next => exact absurd (hzero rfl) (by simp)
    next => rfl
  rw [whole?, ungrouped?_of_digits hne h]
  show (if hasNeedlessZero ds = true then none else some ds) = some ds
  rw [hneedless]
  rfl

/-- Without a sign in front there is none to read. -/
theorem signed_of_head {cs : List Char} (h : ∀ c, cs.head? = some c → c ≠ '-' ∧ c ≠ '+') :
    signed cs = (false, cs) := by
  rw [signed.eq_def]
  split
  next => exact absurd rfl (h _ rfl).1
  next => exact absurd rfl (h _ rfl).2
  next => rfl

theorem ne_sign_of_isDigit {c : Char} (h : isDigit c = true) : c ≠ '-' ∧ c ≠ '+' := by
  constructor <;> rintro rfl <;> exact absurd h (by decide)

/-! ### Integers -/

/-- An integer is read by its digits, unless a base is said in front. -/
theorem integer?_eq {cs : List Char}
    (h : ∀ c rest, cs = '0' :: c :: rest → c ≠ 'x' ∧ c ≠ 'o' ∧ c ≠ 'b') :
    integer? cs = (whole? (signed cs).2).bind fun ds ↦
      inRange? (if (signed cs).1 then -(digitsValue ds : Int) else digitsValue ds) := by
  rw [integer?]
  · rfl
  · exact fun rest heq ↦ (h _ rest heq).1 rfl
  · exact fun rest heq ↦ (h _ rest heq).2.1 rfl
  · exact fun rest heq ↦ (h _ rest heq).2.2 rfl

/-- An integer of 64 bits is read as it was written. -/
theorem integer?_toString {n : Int} (h : fitsInt64 n = true) :
    integer? (toString n).toList = some n := by
  have hdigits : ∀ c ∈ Nat.toDigits 10 n.natAbs, isDigit c = true := fun _ ↦ isDigit_of_mem_toDigits
  -- The reader refuses zeros in front, and the digits of a number have none.
  have hzero : (Nat.toDigits 10 n.natAbs).head? = some '0' → Nat.toDigits 10 n.natAbs = ['0'] := by
    intro hhead
    obtain ⟨ds, hds⟩ := List.head?_eq_some_iff.1 hhead
    rw [hds, eq_nil_of_toDigits_eq_cons hds]
  have hwhole := whole?_of_digits Nat.toDigits_ne_nil hdigits hzero
  rw [toList_toString_int]
  split
  next hneg =>
    rw [integer?_eq (by simp), signed, hwhole, Option.bind_some, digitsValue_toDigits, if_pos rfl,
      show -(n.natAbs : Int) = n by omega, inRange?, if_pos h]
  next hneg =>
    have hsigned : signed (Nat.toDigits 10 n.natAbs) = (false, Nat.toDigits 10 n.natAbs) :=
      signed_of_head fun c hc ↦ ne_sign_of_isDigit (hdigits c (List.mem_of_head? hc))
    rw [integer?_eq fun c rest heq ↦ ?_, hsigned, hwhole, Option.bind_some, digitsValue_toDigits,
      if_neg Bool.false_ne_true, show (n.natAbs : Int) = n by omega, inRange?, if_pos h]
    exact nomatch eq_nil_of_toDigits_eq_cons heq

/-! ### Floats -/

/-- Digits with a point are read as the nearest double. -/
theorem unsignedFloat?_positional {whole fraction : List Char}
    (h : Decimal.IsPositional whole fraction) : unsignedFloat? (whole ++ '.' :: fraction) =
      some (Decimal.nearest (digitsValue (whole ++ fraction)) (-fraction.length)) := by
  have hgrouped {ds : List Char} (hds : ∀ c ∈ ds, isDigit c = true) :
      ∀ c ∈ ds, isGrouped c = true := fun c hc ↦ by rw [isGrouped, hds c hc]; rfl
  have hpoint : ∀ c, ('.' :: fraction).head? = some c → isGrouped c = false := by
    rintro c hc
    obtain rfl := Option.some.inj hc
    decide
  have hname {name : List Char} (hname : '.' ∉ name) : whole ++ '.' :: fraction ≠ name := by
    rintro rfl
    exact hname (List.mem_append_right _ List.mem_cons_self)
  have hfraction : (fraction ++ []).takeWhile isGrouped = fraction :=
    takeWhile_append_of_forall (hgrouped h.fraction_digits) nofun
  have hrest : (fraction ++ []).dropWhile isGrouped = [] :=
    dropWhile_append_of_forall (hgrouped h.fraction_digits) nofun
  rw [List.append_nil] at hfraction hrest
  rw [unsignedFloat?, if_neg (hname (by decide)), if_neg (hname (by decide)),
    takeWhile_append_of_forall (hgrouped h.whole_digits) hpoint,
    dropWhile_append_of_forall (hgrouped h.whole_digits) hpoint,
    whole?_of_digits h.whole_ne h.whole_digits h.zero]
  simp only [hfraction, hrest, ungrouped?_of_digits h.fraction_ne h.fraction_digits]
  simp

section

variable {whole fraction : List Char} (h : Decimal.IsPositional whole fraction)

include h

/-- Such a number is digits and a point. -/
theorem isDigit_or_eq_point {c : Char} (hc : c ∈ whole ++ '.' :: fraction) :
    isDigit c = true ∨ c = '.' := by
  obtain hc | hc := List.mem_append.1 hc
  · exact .inl (h.whole_digits c hc)
  · obtain rfl | hc := List.mem_cons.1 hc
    · exact .inr rfl
    · exact .inl (h.fraction_digits c hc)

theorem notMem_positional {c : Char} (hdigit : isDigit c = false) (hpoint : c ≠ '.') :
    c ∉ whole ++ '.' :: fraction := by
  intro hc
  obtain hc | hc := isDigit_or_eq_point h hc
  · exact Bool.false_ne_true (hdigit.symm.trans hc)
  · exact hpoint hc

/-- Its sign is written in front of it. -/
theorem signed_positional :
    signed (whole ++ '.' :: fraction) = (false, whole ++ '.' :: fraction) := by
  refine signed_of_head fun c hc ↦ ?_
  obtain hdigit | rfl := isDigit_or_eq_point h (List.mem_of_head? hc)
  · exact ne_sign_of_isDigit hdigit
  · decide

/-- What has a point is no integer. -/
theorem integer?_positional (sign : Float.Model.UnpackedFloat.Sign) :
    integer? (Decimal.minus sign ++ (whole ++ '.' :: fraction)) = none := by
  have hsigned : (signed (Decimal.minus sign ++ (whole ++ '.' :: fraction))).2 =
      whole ++ '.' :: fraction := by
    cases sign with
    | positive => exact congrArg Prod.snd (signed_positional h)
    | negative => rfl
  rw [integer?_eq fun c rest heq ↦ ?_, hsigned, whole?_eq_none (c := '.') (by simp) (by decide)]
  · rfl
  · -- behind a zero there is the point
    obtain rfl : c = '.' := by
      cases sign with
      | negative => exact nomatch heq
      | positive =>
        rw [Decimal.minus, List.nil_append] at heq
        have hhead : whole.head? = some '0' := by
          rw [← List.head?_append_of_ne_nil whole h.whole_ne, heq]
          rfl
        rw [h.zero hhead] at heq
        exact (List.cons.inj (List.cons.inj heq).2).1.symm
    decide

end

open Double in
/-- A positive double is read from its digits, whatever sign is in front. -/
theorem float?_minus_append {m : ℕ} {q : ℤ} (h : IsDouble m q) (hmax : q ≤ 971)
    (sign : Float.Model.UnpackedFloat.Sign) {whole fraction : List Char}
    (hpositional : Decimal.IsPositional whole fraction) (hlength : fraction.length ≤ 418)
    (hrounds : Rounds m q (digitsValue (whole ++ fraction) / 10 ^ fraction.length)) :
    float? (Decimal.minus sign ++ (whole ++ '.' :: fraction)) =
      some (ofUnpacked (.finite sign m q h.pos)) := by
  have hread := unsignedFloat?_positional hpositional
  rw [Decimal.nearest_eq h hmax (List.length_pos_of_ne_nil hpositional.fraction_ne) hlength
    hrounds] at hread
  cases sign with
  | positive =>
    have hinf : (ofUnpacked (.finite .positive m q h.pos)).isInf = false := by
      show (ofUnpacked (.finite .positive m q h.pos)).toModel.unpack.isInf = false
      rw [unpack_finite h hmax]
      rfl
    -- Only a sign allows an infinite value, so the reader asks whether this one is.
    rw [Decimal.minus, List.nil_append, float?, signed_positional hpositional]
    show (unsignedFloat? (whole ++ '.' :: fraction)).bind _ = _
    rw [hread, Option.bind_some, if_neg Bool.false_ne_true, hinf]
    rfl
  | negative =>
    rw [Decimal.minus, List.cons_append, List.nil_append, float?, signed]
    show (unsignedFloat? (whole ++ '.' :: fraction)).bind _ = _
    rw [hread, Option.bind_some, if_pos rfl, neg_finite h hmax]

/-- The text of a float: infinity, or digits with a point among them, and a sign in front. -/
inductive IsFloatText : List Char → Prop
  | infinity (sign : Float.Model.UnpackedFloat.Sign) :
    IsFloatText (Decimal.minus sign ++ ['i', 'n', 'f'])
  | positional (sign : Float.Model.UnpackedFloat.Sign) {whole fraction : List Char}
    (h : Decimal.IsPositional whole fraction) :
    IsFloatText (Decimal.minus sign ++ (whole ++ '.' :: fraction))

open Double in
/-- **A float that is a number is read as it was written.** -/
theorem float?_writeFloat {x : Float} (h : x.isNaN = false) :
    IsFloatText (writeFloat x).toList ∧ float? (writeFloat x).toList = some x := by
  have hparts := ofUnpacked_unpack x
  have hnan : x.toModel.unpack.isNaN = false := h
  cases hunpack : x.toModel.unpack with
  | notANumber => exact nomatch hunpack ▸ hnan
  | infinity sign =>
    rw [hunpack] at hparts
    subst hparts
    cases sign with
    | positive => exact ⟨.infinity .positive, rfl⟩
    | negative => exact ⟨.infinity .negative, rfl⟩
  | zero sign =>
    rw [hunpack] at hparts
    subst hparts
    have hzero : Decimal.IsPositional ['0'] ['0'] := by
      constructor <;> simp [isDigit]
    cases sign with
    | positive => exact ⟨.positional .positive hzero, rfl⟩
    | negative => exact ⟨.positional .negative hzero, rfl⟩
  -- The sign is read apart from the digits, and these are those of the positive double.
  | finite sign m q hm =>
    obtain ⟨hdouble, hmax, -⟩ := decode_of_unpack hunpack
    rw [hunpack] at hparts
    subst hparts
    obtain ⟨-, -, hdecode, -⟩ := decode_of_unpack (unpack_finite hdouble hmax .positive)
    obtain ⟨whole, fraction, htext, hpositional, hlength, hrounds⟩ :=
      Decimal.exists_positionalAbs hdouble hdecode
    rw [writeFloat, Decimal.positional, Decimal.signed_finite _ _ hdouble hmax, htext,
      String.toList_ofList]
    exact ⟨.positional sign hpositional,
      float?_minus_append hdouble hmax sign hpositional hlength hrounds⟩

/-! ### Dates -/

/-- A number with zeros in front has its length and its value. -/
theorem padded_spec (length : ℕ) {n : ℕ} (hlength : 0 < length) (h : n < 10 ^ length) :
    (padded length n).toList.length = length ∧ (∀ c ∈ (padded length n).toList, isDigit c = true) ∧
      digitsValue (padded length n).toList = n := by
  have hle : (Nat.toDigits 10 n).length ≤ length :=
    (Nat.length_toDigits_le_iff (by decide) hlength).2 h
  have hdigits : Decimal.digitsOf n = Nat.toDigits 10 n := rfl
  rw [padded, String.toList_ofList, hdigits]
  refine ⟨?_, fun c hc ↦ ?_, ?_⟩
  · rw [List.length_append, List.length_replicate]
    omega
  · obtain hc | hc := List.mem_append.1 hc
    · exact Decimal.isDigit_of_mem_replicate hc
    · exact isDigit_of_mem_toDigits hc
  · rw [digitsValue_append, digitsValue_replicate_zero, digitsValue_toDigits, mul_zero, zero_add]

/-- A number below a hundred is written with two digits, and read again within its bounds. -/
theorem exists_padded_two {n : ℕ} (h : n < 100) : ∃ a b, (padded 2 n).toList = [a, b] ∧
    isDigit a = true ∧ isDigit b = true ∧ ∀ max, n ≤ max → twoDigits? max a b = some n := by
  obtain ⟨hlength, hdigits, hvalue⟩ := padded_spec 2 (by decide) h
  obtain ⟨a, b, heq⟩ := List.length_eq_two.1 hlength
  rw [heq] at hdigits hvalue
  obtain ⟨ha, hb⟩ : isDigit a = true ∧ isDigit b = true := by simpa using hdigits
  refine ⟨a, b, heq, ha, hb, fun max hmax ↦ ?_⟩
  simp [twoDigits?, natural?, ha, hb, hvalue, hmax]

/-- So is a number below ten thousand, with four. -/
theorem exists_padded_four {n : ℕ} (h : n < 10000) : ∃ a b c d, (padded 4 n).toList = [a, b, c, d] ∧
    isDigit a = true ∧ isDigit b = true ∧ isDigit c = true ∧ isDigit d = true ∧
    natural? [a, b, c, d] = some n := by
  obtain ⟨hlength, hdigits, hvalue⟩ := padded_spec 4 (by decide) h
  obtain ⟨a, rest, heq⟩ := List.exists_cons_of_length_eq_add_one hlength
  rw [heq, List.length_cons, Nat.add_right_cancel_iff] at hlength
  obtain ⟨b, c, d, rfl⟩ := List.length_eq_three.1 hlength
  rw [heq] at hdigits hvalue
  obtain ⟨ha, hb, hc, hd⟩ : isDigit a = true ∧ isDigit b = true ∧ isDigit c = true ∧
    isDigit d = true := by simpa using hdigits
  refine ⟨a, b, c, d, heq, ha, hb, hc, hd, ?_⟩
  simp [natural?, ha, hb, hc, hd, hvalue]

/-- A day is read as it was written, whatever comes behind it. -/
theorem date?_write {d : Date} (h : d.IsRegular) (rest : List Char) :
    date? (d.write.toList ++ rest) = some (d, rest) := by
  have hday : d.day < 100 := by
    have := h.day.2
    rw [daysInMonth] at this
    split at this <;> split at this <;> omega
  obtain ⟨a, b, c, e, hyear, -, -, -, -, hyear'⟩ := exists_padded_four h.year
  obtain ⟨f, g, hmonth, -, -, hmonth'⟩ :=
    exists_padded_two (n := d.month) (by have := h.month; omega)
  obtain ⟨i, j, hdaytext, -, -, hday'⟩ := exists_padded_two hday
  have htext : d.write.toList = [a, b, c, e, '-', f, g, '-', i, j] := by
    simp [Date.write, hyear, hmonth, hdaytext]
  have hfilter {n : ℕ} (hn : 0 < n) : (some n).filter (fun x ↦ decide (0 < x)) = some n := by
    simp [hn]
  rw [htext]
  simp only [List.cons_append, List.nil_append, date?, hyear', hmonth' 12 h.month.2,
    Option.bind_eq_bind, Option.bind_some, hfilter h.month.1, hday' _ h.day.2, hfilter h.day.1]
  rfl

/-- Without the zeros at its end a fraction of a second is still the same. -/
theorem fraction_spec {n : ℕ} (h : n < 10 ^ 9) (hn : n ≠ 0) {ds : List Char}
    (hds : ((padded 9 n).toList.reverse.dropWhile (· == '0')).reverse = ds) :
    ds ≠ [] ∧ (∀ c ∈ ds, isDigit c = true) ∧ nanoseconds ds = n := by
  obtain ⟨hlength, hdigits, hvalue⟩ := padded_spec 9 (by decide) h
  generalize (padded 9 n).toList = es at *
  -- What was cut off are zeros, and to nine places they are put back.
  obtain ⟨k, hk⟩ : ∃ k, es = ds ++ List.replicate k '0' := by
    refine ⟨(es.reverse.takeWhile (· == '0')).length, ?_⟩
    have hzeros : es.reverse.takeWhile (· == '0') =
        List.replicate (es.reverse.takeWhile (· == '0')).length '0' :=
      List.eq_replicate_of_mem fun c hc ↦ by simpa using List.mem_takeWhile_imp hc
    rw [← hds, ← List.reverse_replicate, ← hzeros, ← List.reverse_append,
      List.takeWhile_append_dropWhile, List.reverse_reverse]
  subst hk
  rw [List.length_append, List.length_replicate] at hlength
  refine ⟨?_, fun c hc ↦ hdigits c (List.mem_append_left _ hc), ?_⟩
  · rintro rfl
    rw [List.nil_append, digitsValue_replicate_zero] at hvalue
    exact hn hvalue.symm
  · rw [nanoseconds, List.take_of_length_le (by omega), show 9 - ds.length = k by omega]
    exact hvalue

/-- A time of day is read up to what is neither a digit nor a point. -/
theorem time?_write {t : Time} (h : t.IsRegular) {rest : List Char}
    (hrest : ∀ c, rest.head? = some c → isDigit c = false ∧ c ≠ '.') :
    time? (t.write.toList ++ rest) = some (t, rest) := by
  have hhour := h.hour
  have hminute := h.minute
  have hsecond := h.second
  obtain ⟨a, b, hab, -, -, hab'⟩ := exists_padded_two (n := t.hour) (by omega)
  obtain ⟨c, d, hcd, -, -, hcd'⟩ := exists_padded_two (n := t.minute) (by omega)
  obtain ⟨e, f, hef, -, -, hef'⟩ := exists_padded_two (n := t.second) (by omega)
  -- Hours, minutes and seconds have two digits each; they are read the same with a fraction or
  -- without.
  have hwhole (tail : List Char) (htail : ∀ c, tail.head? = some c → c ≠ '.') :
      time? ([a, b, ':', c, d, ':', e, f] ++ tail) =
        some (⟨t.hour, t.minute, t.second, 0⟩, tail) := by
    simp only [List.cons_append, List.nil_append, time?, hab' 23 (by omega), hcd' 59 (by omega),
      hef' 60 hsecond, Option.bind_eq_bind, Option.bind_some]
    split
    next => exact absurd rfl (htail _ rfl)
    next => rfl
  have hfraction (tail : List Char) : time? ([a, b, ':', c, d, ':', e, f] ++ '.' :: tail) =
      if (tail.takeWhile isDigit).isEmpty then none
      else some (⟨t.hour, t.minute, t.second, nanoseconds (tail.takeWhile isDigit)⟩,
        tail.dropWhile isDigit) := by
    simp only [List.cons_append, List.nil_append, time?, hab' 23 (by omega), hcd' 59 (by omega),
      hef' 60 hsecond]
    rfl
  by_cases hzero : t.nanosecond = 0
  · have htext : t.write.toList = [a, b, ':', c, d, ':', e, f] := by
      simp [Time.write, hzero, hab, hcd, hef]
    rw [htext, hwhole rest fun c hc ↦ (hrest c hc).2, ← hzero]
  · obtain ⟨hne, hdigits, hvalue⟩ := fraction_spec h.nanosecond hzero rfl
    have htext : t.write.toList = [a, b, ':', c, d, ':', e, f] ++
        '.' :: ((padded 9 t.nanosecond).toList.reverse.dropWhile (· == '0')).reverse := by
      simp [Time.write, hzero, hab, hcd, hef]
    rw [htext, List.append_assoc, @List.cons_append _ '.', hfraction]
    simp only [takeWhile_append_of_forall hdigits fun c hc ↦ (hrest c hc).1,
      dropWhile_append_of_forall hdigits fun c hc ↦ (hrest c hc).1, hvalue]
    rw [if_neg (by simpa using hne)]

/-- An offset from Greenwich is read as it was written, and is not taken for a part of the time. -/
theorem offset?_write {o : Offset} (h : o.IsRegular) :
    offset? o.write.toList = some o ∧
      ∃ c cs, o.write.toList = c :: cs ∧ isDigit c = false ∧ c ≠ '.' := by
  cases o with
  | utc => exact ⟨rfl, 'Z', [], rfl, by decide, by decide⟩
  | minutes n =>
    replace h : n.natAbs < 24 * 60 := h
    obtain ⟨a, b, hab, -, -, hab'⟩ := exists_padded_two (n := n.natAbs / 60) (by omega)
    obtain ⟨c, d, hcd, -, -, hcd'⟩ := exists_padded_two (n := n.natAbs % 60) (by omega)
    have htext : (Offset.minutes n).write.toList =
        (if n < 0 then '-' else '+') :: [a, b, ':', c, d] := by
      rw [Offset.write]
      split <;> simp [hab, hcd]
    -- The sign of an offset stands apart, and the digits are those of its size.
    have hread (s : Char) : offset? (s :: [a, b, ':', c, d]) =
        if s = '+' then some (.minutes n.natAbs) else if s = '-' then some (.minutes (-n.natAbs))
        else none := by
      simp only [offset?, hab' 23 (by omega), hcd' 59 (by omega), Option.bind_eq_bind,
        Option.bind_some, Nat.div_add_mod' n.natAbs 60]
    rw [htext, hread]
    split
    next hneg =>
      exact ⟨congrArg (some ∘ Offset.minutes) (by omega), '-', _, rfl, by decide, by decide⟩
    next hneg =>
      exact ⟨congrArg (some ∘ Offset.minutes) (by omega), '+', _, rfl, by decide, by decide⟩

/-- A time of day does not begin like a day. -/
theorem date?_time_write {t : Time} (h : t.IsRegular) (rest : List Char) :
    date? (t.write.toList ++ rest) = none := by
  have hhour := h.hour
  have hminute := h.minute
  obtain ⟨a, b, hab, -, -, -⟩ := exists_padded_two (n := t.hour) (by omega)
  obtain ⟨c, d, hcd, -, hd, -⟩ := exists_padded_two (n := t.minute) (by omega)
  obtain ⟨tail, htext⟩ : ∃ tail, t.write.toList ++ rest = a :: b :: ':' :: c :: d :: tail :=
    ⟨_, by simp [Time.write, hab, hcd]; rfl⟩
  rw [htext, date?]
  rintro a' b' c' d' e f g h' rest' heq
  simp only [List.cons.injEq] at heq
  exact absurd heq.2.2.2.2.1 (ne_sign_of_isDigit hd).1

/-- Behind a day and a time of day there may be an offset. -/
theorem datetime?_write_append {d : Date} (hd : d.IsRegular) {t : Time} (ht : t.IsRegular)
    {rest : List Char} (hrest : ∀ c, rest.head? = some c → isDigit c = false ∧ c ≠ '.') :
    datetime? (d.write.toList ++ 'T' :: (t.write.toList ++ rest)) =
      if rest.isEmpty then some ⟨some d, some t, none⟩
      else (offset? rest).map fun o ↦ ⟨some d, some t, some o⟩ := by
  rw [datetime?, date?_write hd]
  dsimp only
  rw [time?_write ht hrest]
  cases rest with
  | nil => rfl
  | cons c rest =>
    show (offset? (c :: rest)).bind _ = _
    cases offset? (c :: rest) <;> rfl

/-- **A date is read as it was written**, in each of its four forms. -/
theorem datetime?_write {d : Datetime} (h : d.IsRegular) : datetime? d.write.toList = some d := by
  cases h with
  | @date d hd =>
    have htext : (Datetime.mk (some d) none none).write.toList = d.write.toList ++ [] := by
      simp [Datetime.write]
    rw [htext, datetime?, date?_write hd]
  | @time t ht =>
    have htext : (Datetime.mk none (some t) none).write.toList = t.write.toList ++ [] := by
      simp [Datetime.write]
    rw [htext, datetime?, date?_time_write ht, time?_write ht (by simp)]
  -- The time goes on up to the offset, which begins with neither a digit nor a point.
  | @both d t o hd ht ho =>
    cases o with
    | none =>
      have htext : (Datetime.mk (some d) (some t) none).write.toList =
          d.write.toList ++ 'T' :: (t.write.toList ++ []) := by
        simp [Datetime.write]
      rw [htext, datetime?_write_append hd ht (by simp)]
      rfl
    | some o =>
      obtain ⟨hread, c, cs, heq, hdigit, hpoint⟩ := offset?_write (ho o rfl)
      have htext : (Datetime.mk (some d) (some t) (some o)).write.toList =
          d.write.toList ++ 'T' :: (t.write.toList ++ o.write.toList) := by
        simp [Datetime.write]
      rw [htext, datetime?_write_append hd ht, hread]
      · simp [heq]
      · rintro e he
        obtain rfl : c = e := by simpa [heq] using he
        exact ⟨hdigit, hpoint⟩

/-! ### Scalars -/

/-- A value is read from a text of characters that numbers and dates have. -/
structure IsScalar (cs : List Char) (v : Toml) : Prop where
  ne : cs ≠ []
  chars : ∀ c ∈ cs, Reader.isScalarChar c = true
  read : scalar? cs = some v

/-- Truth values are read as they were written. -/
theorem isScalar_bool (b : Bool) : IsScalar (if b then "true" else "false").toList (.bool b) := by
  cases b <;> exact ⟨by simp, by simp [Reader.isScalarChar, isBareKeyChar], rfl⟩

theorem isScalarChar_of_isDigit {c : Char} (h : isDigit c = true) :
    Reader.isScalarChar c = true := by
  rw [isDigit] at h
  simp [Reader.isScalarChar, isBareKeyChar, h]

/-- Without a line inside and colons there is no date. -/
theorem datetime?_eq_none {cs : List Char} (hdate : '-' ∉ cs.drop 1) (htime : ':' ∉ cs) :
    datetime? cs = none := by
  have hnoDate : date? cs = none := by
    unfold date?
    split
    next => exact absurd (by simp) hdate
    next => rfl
  have hnoTime : time? cs = none := by
    unfold time?
    split
    next => exact absurd (by simp) htime
    next => rfl
  rw [datetime?, hnoDate]
  dsimp only
  rw [hnoTime]

/-- Of the forms of a scalar that of a date is tried first, -/
theorem scalar?_of_datetime {cs : List Char} {d : Datetime} (h : datetime? cs = some d) :
    scalar? cs = some (.datetime d) := by
  rw [scalar?, if_neg, if_neg, h]
  all_goals
    rintro rfl
    exact nomatch h

/-- then that of an integer, -/
theorem scalar?_of_integer {cs : List Char} {n : Int} (hdate : datetime? cs = none)
    (h : integer? cs = some n) : scalar? cs = some (.int n) := by
  rw [scalar?, if_neg, if_neg, hdate]
  · dsimp only
    rw [h]
  all_goals
    rintro rfl
    exact nomatch h

/-- and then that of a float. -/
theorem scalar?_of_float {cs : List Char} {x : Float} (hdate : datetime? cs = none)
    (hint : integer? cs = none) (h : float? cs = some x) : scalar? cs = some (.float x) := by
  rw [scalar?, if_neg, if_neg, hdate]
  · dsimp only
    rw [hint, h]
    rfl
  all_goals
    rintro rfl
    exact nomatch h

/-- An integer is no date, because there is no line within it but that of its sign. -/
theorem isScalar_int {n : Int} (h : fitsInt64 n = true) :
    IsScalar (toString n).toList (.int n) := by
  have hdigits : ∀ c ∈ Nat.toDigits 10 n.natAbs, isDigit c = true := fun _ ↦ isDigit_of_mem_toDigits
  have hmem {c : Char} (hc : isDigit c = false) : c ∉ Nat.toDigits 10 n.natAbs :=
    fun hmem ↦ Bool.false_ne_true (hc.symm.trans (hdigits c hmem))
  have hchars : ∀ c ∈ Nat.toDigits 10 n.natAbs, Reader.isScalarChar c = true :=
    fun c hc ↦ isScalarChar_of_isDigit (hdigits c hc)
  have hread := integer?_toString h
  rw [toList_toString_int] at *
  split at hread
  -- The only line is the sign, and it is not where a date has its first one.
  next hneg =>
    rw [if_pos hneg]
    refine ⟨by simp, List.forall_mem_cons.2 ⟨by decide, hchars⟩,
      scalar?_of_integer (datetime?_eq_none (hmem (by decide)) ?_) hread⟩
    simpa using hmem (c := ':') (by decide)
  next hneg =>
    rw [if_neg hneg]
    refine ⟨Nat.toDigits_ne_nil, hchars,
      scalar?_of_integer (datetime?_eq_none (fun hmem' ↦ ?_) (hmem (by decide))) hread⟩
    exact hmem (by decide) (List.mem_of_mem_drop hmem')

/-- What has a sign in front and digits and a point behind it is no date. -/
theorem datetime?_positional {whole fraction : List Char} (h : Decimal.IsPositional whole fraction)
    (sign : Float.Model.UnpackedFloat.Sign) :
    datetime? (Decimal.minus sign ++ (whole ++ '.' :: fraction)) = none := by
  have hminus : '-' ∉ whole ++ '.' :: fraction := notMem_positional h (by decide) (by decide)
  have hcolon : ':' ∉ whole ++ '.' :: fraction := notMem_positional h (by decide) (by decide)
  cases sign with
  | positive => exact datetime?_eq_none (fun hmem ↦ hminus (List.mem_of_mem_drop hmem)) hcolon
  | negative => exact datetime?_eq_none hminus (by simpa [Decimal.minus] using hcolon)

/-- A float is neither a date nor an integer. -/
theorem isScalar_float {x : Float} (h : x.isNaN = false) :
    IsScalar (writeFloat x).toList (.float x) := by
  obtain ⟨htext, hread⟩ := float?_writeFloat h
  generalize (writeFloat x).toList = cs at *
  cases htext with
  | infinity sign =>
    cases sign <;> exact ⟨by simp [Decimal.minus],
      by simp [Decimal.minus, Reader.isScalarChar, isBareKeyChar], scalar?_of_float rfl rfl hread⟩
  -- The point keeps it from being an integer, and the missing colon and lines from being a date.
  | @positional sign whole fraction h =>
    refine ⟨by simp, fun c hc ↦ ?_,
      scalar?_of_float (datetime?_positional h sign) (integer?_positional h sign) hread⟩
    obtain hc | hc := List.mem_append.1 hc
    · cases sign with
      | positive => exact nomatch hc
      | negative =>
        obtain rfl := List.mem_singleton.1 hc
        decide
    · obtain hdigit | rfl := isDigit_or_eq_point h hc
      · exact isScalarChar_of_isDigit hdigit
      · decide

theorem isDigit_of_mem_padded {length n : ℕ} {c : Char} (h : c ∈ (padded length n).toList) :
    isDigit c = true := by
  rw [padded, String.toList_ofList] at h
  obtain h | h := List.mem_append.1 h
  · exact Decimal.isDigit_of_mem_replicate h
  · exact isDigit_of_mem_toDigits h

section

variable {c : Char}

theorem isScalarChar_of_mem_padded {length n : ℕ} (h : c ∈ (padded length n).toList) :
    Reader.isScalarChar c = true := isScalarChar_of_isDigit (isDigit_of_mem_padded h)

theorem isScalarChar_of_mem {s : List Char} (hs : s.all Reader.isScalarChar = true) (h : c ∈ s) :
    Reader.isScalarChar c = true := List.all_eq_true.1 hs c h

/-- A day is written with digits and lines. -/
theorem isScalarChar_of_mem_date {d : Date} (h : c ∈ d.write.toList) :
    Reader.isScalarChar c = true := by
  simp only [Date.write, String.toList_append, List.mem_append] at h
  obtain (((h | h) | h) | h) | h := h
  · exact isScalarChar_of_mem_padded h
  · exact isScalarChar_of_mem rfl h
  · exact isScalarChar_of_mem_padded h
  · exact isScalarChar_of_mem rfl h
  · exact isScalarChar_of_mem_padded h

/-- A time of day is written with digits, colons and points. -/
theorem isScalarChar_of_mem_time {t : Time} (h : c ∈ t.write.toList) :
    Reader.isScalarChar c = true := by
  simp only [Time.write, String.toList_append, List.mem_append] at h
  obtain ((((h | h) | h) | h) | h) | h := h
  · exact isScalarChar_of_mem_padded h
  · exact isScalarChar_of_mem rfl h
  · exact isScalarChar_of_mem_padded h
  · exact isScalarChar_of_mem rfl h
  · exact isScalarChar_of_mem_padded h
  · split at h
    · exact nomatch h
    · simp only [String.toList_append, String.toList_ofList, List.mem_append, List.mem_reverse] at h
      obtain h | h := h
      · exact isScalarChar_of_mem rfl h
      · exact isScalarChar_of_mem_padded (List.mem_reverse.1 ((List.dropWhile_sublist _).mem h))

/-- An offset is a letter, or digits behind a sign. -/
theorem isScalarChar_of_mem_offset {o : Offset} (h : c ∈ o.write.toList) :
    Reader.isScalarChar c = true := by
  cases o with
  | utc => exact isScalarChar_of_mem rfl h
  | minutes n =>
    simp only [Offset.write, String.toList_append, List.mem_append] at h
    obtain ((h | h) | h) | h := h
    · split at h <;> exact isScalarChar_of_mem rfl h
    · exact isScalarChar_of_mem_padded h
    · exact isScalarChar_of_mem rfl h
    · exact isScalarChar_of_mem_padded h

/-- A date is written with the characters of its parts and a letter between them. -/
theorem isScalarChar_of_mem_datetime {d : Datetime} (h : c ∈ d.write.toList) :
    Reader.isScalarChar c = true := by
  obtain ⟨date, time, offset⟩ := d
  simp only [Datetime.write, String.toList_append, List.mem_append] at h
  obtain (h | h) | h := h
  · cases date with
    | none => exact nomatch h
    | some date => exact isScalarChar_of_mem_date h
  · cases time with
    | none => exact nomatch h
    | some time =>
      rw [String.toList_append] at h
      obtain h | h := List.mem_append.1 h
      · split at h
        · exact isScalarChar_of_mem rfl h
        · exact nomatch h
      · exact isScalarChar_of_mem_time h
  · cases offset with
    | none => exact nomatch h
    | some offset => exact isScalarChar_of_mem_offset h

end

/-- A date is written with the characters of a scalar. -/
theorem isScalar_datetime {d : Datetime} (h : d.IsRegular) :
    IsScalar d.write.toList (.datetime d) := by
  have hread := datetime?_write h
  refine ⟨?_, fun c ↦ isScalarChar_of_mem_datetime, scalar?_of_datetime hread⟩
  intro hnil
  rw [hnil] at hread
  exact nomatch hread

namespace Reader

/-- What may follow a value: a string would go on with a quote, a number with what numbers are made
of, and a day with a time. -/
structure EndsValue (rest : List Char) : Prop where
  head : ∀ c, rest.head? = some c → isScalarChar c = false ∧ c ≠ '"' ∧ c ≠ '\''
  time : timeFollows rest = false

/-- Numbers and dates are read up to what ends them. -/
theorem value?_scalar {cs rest : List Char} {v : Toml} (h : IsScalar cs v) (hrest : EndsValue rest)
    (fuel depth : ℕ) : value? (fuel + 1) depth (cs ++ rest) = some (v, rest) := by
  have hspan := span_append_of_forall h.chars fun c hc ↦ (hrest.head c hc).1
  have hscalar : scalarChars (cs ++ rest) = (cs, rest) := by
    rw [scalarChars, hspan]
    dsimp only
    rw [hrest.time]
    split
    next _ htrue => exact nomatch htrue
    next => rfl
  obtain ⟨c, cs, rfl⟩ := List.exists_cons_of_ne_nil h.ne
  have hc := h.chars c List.mem_cons_self
  rw [value?]
  · rw [hscalar]
    show (scalar? (c :: cs)).bind _ = _
    rw [h.read]
    rfl
  -- A character of a number or a date begins nothing else.
  all_goals
    intro v heq
    rw [(List.cons.inj heq).1] at hc
    exact absurd hc (by decide)

end Reader

end BslLint.Toml
