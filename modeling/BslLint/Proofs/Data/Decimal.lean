import BslLint.Proofs.Data.Double
import BslLint.Proofs.Text.Number

/-!
# Decimal texts of doubles are read back

The digits that are found for a double are a number in the interval around it, because the search
keeps to numbers in it and the finest grid is finer than half of it (`exists_shortest`). Written
with a point they are still this number (`exists_positionalAbs`), and what is read of such a number
is the double (`nearest_eq`).
-/

namespace BslLint.Decimal

open Double

variable {m : ℕ} {q k : ℤ}

/-! ### Fractions -/

/-- The number that a fraction is. -/
def Ratio.val (r : Ratio) : ℚ := r.num / r.den

theorem ofBinary_den_pos (m : ℕ) (q : ℤ) : 0 < (Ratio.ofBinary m q).den := by
  rw [Ratio.ofBinary]
  split
  · exact Nat.one_pos
  · exact Nat.two_pow_pos _

theorem ofDecimal_den_pos (d : ℕ) (k : ℤ) : 0 < (Ratio.ofDecimal d k).den := by
  rw [Ratio.ofDecimal]
  split
  · exact Nat.one_pos
  · exact Nat.pow_pos (by decide)

/-- A power with a whole exponent, by the size of the exponent. -/
theorem zpow_eq {b : ℚ} (q : ℤ) :
    b ^ q = if 0 ≤ q then b ^ q.toNat else (b ^ q.natAbs)⁻¹ := by
  split
  next h => rw [← zpow_natCast, Int.toNat_of_nonneg h]
  next h => rw [← zpow_natCast, ← zpow_neg, Int.ofNat_natAbs_of_nonpos (by omega), neg_neg]

/-- A fraction from a power of two is this number, -/
@[simp]
theorem val_ofBinary (m : ℕ) (q : ℤ) : (Ratio.ofBinary m q).val = m * 2 ^ q := by
  rw [Ratio.ofBinary, zpow_eq]
  split
  · simp [Ratio.val]
  · simp [Ratio.val, div_eq_mul_inv]

/-- and so is one from a power of ten. -/
@[simp]
theorem val_ofDecimal (d : ℕ) (k : ℤ) : (Ratio.ofDecimal d k).val = d * 10 ^ k := by
  rw [Ratio.ofDecimal, zpow_eq]
  split
  · simp [Ratio.val]
  · simp [Ratio.val, div_eq_mul_inv]

/-- Fractions are compared as the numbers that they are. -/
theorem lt_iff {r s : Ratio} (hr : 0 < r.den) (hs : 0 < s.den) : r.lt s = true ↔ r.val < s.val := by
  rw [Ratio.lt, decide_eq_true_eq, Ratio.val, Ratio.val,
    div_lt_div_iff₀ (by exact_mod_cast hr) (by exact_mod_cast hs)]
  exact_mod_cast Iff.rfl

/-! ### The interval of a double -/

/-- The lower end of the interval. -/
theorem exists_low (hm : 0 < m) (q : ℤ) : ∃ low : Ratio, 0 < low.den ∧
    (low.val = if m = 2 ^ 52 ∧ -1074 < q then ((m : ℚ) - 1 / 4) * 2 ^ q
      else ((m : ℚ) - 1 / 2) * 2 ^ q) ∧
    ∀ r, readsAs m q r = if m % 2 = 0 then
        !r.lt low && !(Ratio.ofBinary (2 * m + 1) (q - 1)).lt r
      else low.lt r && r.lt (Ratio.ofBinary (2 * m + 1) (q - 1)) := by
  have hone : ((2 * m - 1 : ℕ) : ℚ) = 2 * m - 1 := by rw [Nat.cast_sub (by omega)]; push_cast; ring
  have hone' : ((4 * m - 1 : ℕ) : ℚ) = 4 * m - 1 := by rw [Nat.cast_sub (by omega)]; push_cast; ring
  have hcond : (decide (m = Nat.pow 2 52) && decide (-1074 < q)) = true ↔
      m = 2 ^ 52 ∧ -1074 < q := by
    rw [Bool.and_eq_true, decide_eq_true_eq, decide_eq_true_eq]
    rfl
  by_cases h : m = 2 ^ 52 ∧ -1074 < q
  · refine ⟨.ofBinary (4 * m - 1) (q - 2), ofBinary_den_pos _ _, ?_, fun r ↦ ?_⟩
    · rw [if_pos h, val_ofBinary, hone', zpow_sub₀ two_ne_zero, zpow_ofNat]
      ring
    · rw [readsAs, if_pos (hcond.2 h)]
  · refine ⟨.ofBinary (2 * m - 1) (q - 1), ofBinary_den_pos _ _, ?_, fun r ↦ ?_⟩
    · rw [if_neg h, val_ofBinary, hone, zpow_sub_one₀ two_ne_zero]
      ring
    · rw [readsAs, if_neg (hcond.not.2 h)]

/-- The upper end of the interval. -/
theorem val_high (m : ℕ) (q : ℤ) :
    (Ratio.ofBinary (2 * m + 1) (q - 1)).val = (m + 1 / 2) * 2 ^ q := by
  rw [val_ofBinary, zpow_sub_one₀ two_ne_zero]
  push_cast
  ring

/-- What is taken for a number in the interval of a double is in it. -/
theorem rounds_of_readsAs {r : Ratio} (hr : 0 < r.den) (h : readsAs m q r = true) (hm : 0 < m) :
    Rounds m q r.val := by
  have hscale : (0 : ℚ) < 2 ^ q := zpow_pos two_pos q
  obtain ⟨low, hden, hlow, hreads⟩ := exists_low hm q
  rw [hreads] at h
  -- Below a power of two the doubles lie closer, and the interval ends at a quarter, not at a half.
  have hle : ((m : ℚ) - 1 / 2) * 2 ^ q ≤ low.val := by
    rw [hlow]
    split
    · exact mul_le_mul_of_nonneg_right (by linarith) hscale.le
    · exact le_rfl
  split at h
  -- An even number has the ends of its interval too.
  next heven =>
    simp only [Bool.and_eq_true, Bool.not_eq_true', ← Bool.not_eq_true, lt_iff hr hden,
      lt_iff (ofBinary_den_pos _ _) hr, val_high, not_lt] at h
    refine ⟨hle.trans h.1, h.2, fun hodd ↦ by omega, fun hpower hq ↦ ?_⟩
    rw [if_pos ⟨hpower, hq⟩] at hlow
    exact hlow ▸ h.1
  next hodd =>
    simp only [Bool.and_eq_true, lt_iff hden hr, lt_iff hr (ofBinary_den_pos _ _), val_high] at h
    refine ⟨hle.trans h.1.le, h.2.le, fun _ ↦ ⟨hle.trans_lt h.1, h.2⟩, fun hpower _ ↦ ?_⟩
    exact absurd (by rw [hpower]; decide) hodd

/-- A number from a double up to less than half way to the next one is taken for a number in its
interval. -/
theorem readsAs_of_mem {r : Ratio} (hr : 0 < r.den) (hm : 0 < m) (hge : m * 2 ^ q ≤ r.val)
    (hlt : r.val < (m + 1 / 2) * 2 ^ q) : readsAs m q r = true := by
  have hscale : (0 : ℚ) < 2 ^ q := zpow_pos two_pos q
  obtain ⟨low, hden, hlow, hreads⟩ := exists_low hm q
  have hbelow : low.val < m * 2 ^ q := by
    rw [hlow]
    split <;> exact mul_lt_mul_of_pos_right (by linarith) hscale
  rw [hreads]
  split
  · simp only [Bool.and_eq_true, Bool.not_eq_true', ← Bool.not_eq_true, lt_iff hr hden,
      lt_iff (ofBinary_den_pos _ _) hr, val_high, not_lt]
    exact ⟨(hbelow.trans_le hge).le, hlt.le⟩
  · simp only [Bool.and_eq_true, lt_iff hden hr, lt_iff hr (ofBinary_den_pos _ _), val_high]
    exact ⟨hbelow.trans_le hge, hlt⟩

/-! ### The search -/

/-- What is found on a grid lies in the interval, and is not zero. -/
theorem onGrid?_eq_some {d : ℕ} (hm : 0 < m) (h : onGrid? m q k = some d) :
    0 < d ∧ Rounds m q (d * 10 ^ k) := by
  have hrounds {d : ℕ} (h : readsAs m q (.ofDecimal d k) = true) : Rounds m q (d * 10 ^ k) :=
    val_ofDecimal d k ▸ rounds_of_readsAs (ofDecimal_den_pos d k) h hm
  rw [onGrid?] at h
  generalize (if 0 ≤ k then _ else _ : ℕ) = low at h
  split at h
  next hbelow habove =>
    rw [Bool.and_eq_true, decide_eq_true_eq] at hbelow
    split at h <;> obtain rfl := Option.some.inj h
    · exact ⟨Nat.succ_pos _, hrounds habove⟩
    · exact ⟨hbelow.2, hrounds hbelow.1⟩
  next hbelow _ =>
    rw [Bool.and_eq_true, decide_eq_true_eq] at hbelow
    obtain rfl := Option.some.inj h
    exact ⟨hbelow.2, hrounds hbelow.1⟩
  next _ habove =>
    obtain rfl := Option.some.inj h
    exact ⟨Nat.succ_pos _, hrounds habove⟩
  next => exact nomatch h

/-- A quotient is cut down to a whole number. -/
theorem cast_div_bounds (a b : ℕ) : ((a / b : ℕ) : ℚ) ≤ a / b ∧ (a : ℚ) / b < (a / b : ℕ) + 1 := by
  refine ⟨Nat.cast_div_le, ?_⟩
  rw [← Nat.floor_div_eq_div (K := ℚ)]
  exact Nat.lt_floor_add_one _

/-- A value is between two neighbours on a grid. -/
theorem grid_bounds (r : Ratio) (k : ℤ) {low : ℕ} (hlow : (if 0 ≤ k
      then r.num / (r.den * Nat.pow 10 k.toNat) else r.num * Nat.pow 10 k.natAbs / r.den) = low) :
    low * 10 ^ k ≤ r.val ∧ r.val < (low + 1) * (10 : ℚ) ^ k := by
  have hgrid : (0 : ℚ) < 10 ^ k := zpow_pos (by norm_num) k
  have hbounds : low ≤ r.val / 10 ^ k ∧ r.val / (10 : ℚ) ^ k < low + 1 := by
    rw [Ratio.val, zpow_eq]
    split at hlow
    next h =>
      have hdiv := cast_div_bounds r.num (r.den * Nat.pow 10 k.toNat)
      rw [if_pos h, div_div]
      rw [hlow] at hdiv
      simpa using hdiv
    next h =>
      have hdiv := cast_div_bounds (r.num * Nat.pow 10 k.natAbs) r.den
      rw [if_neg h, div_inv_eq_mul, div_mul_eq_mul_div]
      rw [hlow] at hdiv
      simpa using hdiv
  exact ⟨(le_div_iff₀ hgrid).1 hbounds.1, (div_lt_iff₀ hgrid).1 hbounds.2⟩

/-- On a grid that is finer than half of the interval a number is found. -/
theorem exists_onGrid? (hm : 0 < m) (h : 2 * (10 : ℚ) ^ k < 2 ^ q) :
    ∃ d, onGrid? m q k = some d := by
  have hgrid : (0 : ℚ) < 10 ^ k := zpow_pos (by norm_num) k
  rw [onGrid?]
  generalize hlow : (if 0 ≤ k then _ else _ : ℕ) = low
  have hfloor := grid_bounds (Ratio.ofBinary m q) k hlow
  rw [val_ofBinary] at hfloor
  have habove : readsAs m q (.ofDecimal (low + 1) k) = true := by
    refine readsAs_of_mem (ofDecimal_den_pos _ _) hm ?_ ?_ <;> rw [val_ofDecimal] <;> push_cast
    · exact hfloor.2.le
    · linarith
  rw [habove]
  split
  next => split <;> exact ⟨_, rfl⟩
  next => exact ⟨_, rfl⟩
  next => exact ⟨_, rfl⟩
  next hfalse => exact nomatch hfalse

/-- Zeros at the end go into the exponent. -/
theorem exists_trimZeros (fuel d : ℕ) (k : ℤ) :
    ∃ e n : ℕ, trimZeros fuel d k = (e, k + n) ∧ d = e * 10 ^ n := by
  induction fuel generalizing d k with
  | zero => exact ⟨d, 0, by simp [trimZeros], by simp⟩
  | succ fuel ih =>
    rw [trimZeros]
    split
    next h =>
      simp only [Bool.and_eq_true, decide_eq_true_eq] at h
      obtain ⟨e, n, heq, hd⟩ := ih (d / 10) (k + 1)
      refine ⟨e, n + 1, by rw [heq]; push_cast; ring_nf, ?_⟩
      rw [pow_succ, ← mul_assoc, ← hd]
      omega
    next => exact ⟨d, 0, by simp, by simp⟩

/-- The search finds a number in the interval, if the finest grid is fine enough. -/
theorem exists_search (hm : 0 < m) (fuel : ℕ) (k : ℤ) (h : 2 * (10 : ℚ) ^ (k - fuel) < 2 ^ q) :
    ∃ d l, search (fuel + 1) m q k = (d, l) ∧ 0 < d ∧ k - fuel ≤ l ∧ Rounds m q (d * 10 ^ l) := by
  have hfound {d : ℕ} {k' low : ℤ} (hk' : low ≤ k') (hd : onGrid? m q k' = some d) :
      ∃ e l, trimZeros 20 d k' = (e, l) ∧ 0 < e ∧ low ≤ l ∧ Rounds m q (e * 10 ^ l) := by
    obtain ⟨hpos, hrounds⟩ := onGrid?_eq_some hm hd
    obtain ⟨e, n, heq, rfl⟩ := exists_trimZeros 20 d k'
    refine ⟨e, k' + n, heq, Nat.pos_of_mul_pos_right hpos, by omega, ?_⟩
    rw [zpow_add₀ (by norm_num), zpow_natCast]
    convert hrounds using 1
    push_cast
    ring
  induction fuel generalizing k with
  | zero =>
    obtain ⟨d, hd⟩ := exists_onGrid? (k := k) hm (by simpa using h)
    -- Zeros cut off the end belong to the power of ten.
    rw [search, hd]
    exact hfound (by simp) hd
  -- On a grid that is too coarse nothing is found, and the next one is ten times as fine.
  | succ fuel ih =>
    rw [search]
    split
    next d hd => exact hfound (by omega) hd
    next =>
      have hk : k - 1 - (fuel : ℤ) = k - (fuel + 1 : ℕ) := by push_cast; ring
      rw [← hk]
      exact ih (k - 1) (hk ▸ h)

/-- The number of its digits is the size of a number. -/
theorem length_digitsOf_bounds {n : ℕ} (h : 0 < n) :
    10 ^ ((digitsOf n).length - 1) ≤ n ∧ n < 10 ^ (digitsOf n).length := by
  have hpos : 0 < (digitsOf n).length := Nat.length_toDigits_pos
  refine ⟨?_, (Nat.length_toDigits_le_iff (by decide) hpos).1 le_rfl⟩
  obtain hone | hmore : (digitsOf n).length = 1 ∨ 0 < (digitsOf n).length - 1 := by omega
  · rw [hone]
    exact h
  · refine not_lt.1 fun hlt ↦ ?_
    have := (Nat.length_toDigits_le_iff (by decide) hmore).2 hlt
    rw [digitsOf] at *
    omega

/-- A number is at least the power of ten with its number of digits, less one. -/
theorem zpow_digitCount_le {v : ℚ} {n : ℕ} (e : ℕ) (hn : 0 < n) (hle : n ≤ v * 10 ^ e) :
    (10 : ℚ) ^ ((digitCount n : ℤ) - (e + 1)) ≤ v := by
  have hcount : digitCount n = (digitsOf n).length := by rw [digitCount, if_neg hn.ne']; rfl
  have hpos : 0 < (digitsOf n).length := Nat.length_toDigits_pos
  have hdigits : (10 : ℚ) ^ ((digitsOf n).length - 1) ≤ n := by
    exact_mod_cast (length_digitsOf_bounds hn).1
  rw [hcount, show ((digitsOf n).length : ℤ) - (e + 1) = ((digitsOf n).length - 1 : ℕ) - (e : ℤ) by
    omega, zpow_sub₀ (by norm_num), zpow_natCast, zpow_natCast, div_le_iff₀ (by positivity)]
  exact hdigits.trans hle

/-- The first digit of a number is found, and is not too far behind the point. -/
theorem leading_bounds {r : Ratio} (hlow : 1 ≤ r.val * 10 ^ 400) :
    -401 ≤ leading r ∧ (10 : ℚ) ^ leading r ≤ r.val := by
  obtain ⟨e, he⟩ : ∃ e, e = 400 := ⟨_, rfl⟩
  rw [leading, ← he]
  rw [← he] at hlow
  have hdiv := cast_div_bounds (r.num * Nat.pow 10 e) r.den
  rw [Nat.pow_eq, Nat.cast_mul, Nat.cast_pow, mul_div_right_comm] at hdiv
  have hpos := hlow.trans_lt hdiv.2
  rw [lt_add_iff_pos_left, Nat.cast_pos] at hpos
  have hle := zpow_digitCount_le e hpos hdiv.1
  rw [show (e : ℤ) + 1 = 401 by omega] at hle
  exact ⟨by omega, hle⟩

/-- A power of two is less than the power of ten with a third of its exponent. -/
theorem two_pow_le_ten_pow {a b : ℕ} (h : a ≤ 3 * b) : (2 : ℚ) ^ a ≤ 10 ^ b := by
  calc (2 : ℚ) ^ a ≤ 2 ^ (3 * b) := pow_le_pow_right₀ one_le_two h
    _ = (2 ^ 3) ^ b := pow_mul ..
    _ ≤ 10 ^ b := pow_le_pow_left₀ (by norm_num) (by norm_num) b

/-- The same with both below one. -/
theorem ten_zpow_neg_le {a b : ℕ} (h : a ≤ 3 * b) : (10 : ℚ) ^ (-(b : ℤ)) ≤ 2 ^ (-(a : ℤ)) := by
  rw [zpow_neg, zpow_neg, zpow_natCast, zpow_natCast]
  exact inv_anti₀ (by positivity) (two_pow_le_ten_pow h)

/-- **The shortest digits of a double are a number in the interval around it.** -/
theorem exists_shortest {x : Float} (h : IsDouble m q) (hx : decode x = (m, q)) :
    ∃ d k, shortest x = (d, k) ∧ 0 < d ∧ -418 ≤ k ∧ Rounds m q (d * 10 ^ k) := by
  have hscale : (0 : ℚ) < 2 ^ q := zpow_pos two_pos q
  have hm : (1 : ℚ) ≤ m := by exact_mod_cast h.pos
  have hm' : (m : ℚ) < 2 ^ 53 := by exact_mod_cast h.lt
  have hleast : 1 ≤ (m : ℚ) * 2 ^ q * 10 ^ 400 := by
    have hpowers : (2 : ℚ) ^ 1074 ≤ 10 ^ 400 := two_pow_le_ten_pow (by decide)
    calc (1 : ℚ) = 2 ^ (-1074 : ℤ) * 2 ^ 1074 := by
          rw [← zpow_natCast, ← zpow_add₀ two_ne_zero, ← zpow_zero (2 : ℚ)]
          rfl
      _ ≤ 2 ^ q * 10 ^ 400 :=
        mul_le_mul (zpow_le_zpow_right₀ one_le_two h.min) hpowers (by positivity) hscale.le
      _ ≤ m * 2 ^ q * 10 ^ 400 := by
        rw [mul_assoc]
        exact le_mul_of_one_le_left (by positivity) hm
  obtain ⟨hlow, hle⟩ := leading_bounds (r := .ofBinary m q) (by rwa [val_ofBinary])
  rw [val_ofBinary] at hle
  -- seventeen digits are finer than half of the interval
  have hfine : 2 * (10 : ℚ) ^ (leading (.ofBinary m q) - (17 : ℕ)) < 2 ^ q := by
    have hlt : (10 : ℚ) ^ leading (.ofBinary m q) < 2 ^ 53 * 2 ^ q :=
      hle.trans_lt (mul_lt_mul_of_pos_right hm' hscale)
    rw [zpow_sub₀ (by norm_num), zpow_natCast, mul_div_assoc', div_lt_iff₀ (by norm_num)]
    linarith
  rw [shortest, hx]
  obtain ⟨d, k, heq, hpos, hk, hrounds⟩ := exists_search h.pos 17 _ hfine
  exact ⟨d, k, heq, hpos, by omega, hrounds⟩

/-! ### Digits with a point -/

open Text

/-- Digits before a point and behind it, as readers of numbers ask for them. -/
structure IsPositional (whole fraction : List Char) : Prop where
  whole_ne : whole ≠ []
  fraction_ne : fraction ≠ []
  whole_digits : ∀ c ∈ whole, isDigit c = true
  fraction_digits : ∀ c ∈ fraction, isDigit c = true
  zero : whole.head? = some '0' → whole = ['0']

theorem isDigit_of_mem_replicate {n : ℕ} {c : Char} (h : c ∈ List.replicate n '0') :
    isDigit c = true := by
  rw [List.eq_of_mem_replicate h]
  decide

/-- Digits before a point and behind it that stand for `d * 10 ^ k`, with no more of them behind the
point than that takes. -/
structure Shows (d : ℕ) (k : ℤ) (whole fraction : List Char) : Prop where
  isPositional : IsPositional whole fraction
  length_le : (fraction.length : ℤ) ≤ max 1 (-k)
  value_eq : (digitsValue (whole ++ fraction) : ℚ) / 10 ^ fraction.length = d * 10 ^ k

section

variable {d n : ℕ} {k : ℤ} {ds rest : List Char} {first : Char}

/-- Behind the point there are as many digits as the power says. -/
theorem div_pow_eq (d : ℕ) (hn : (n : ℤ) = -k) : (d : ℚ) / 10 ^ n = d * 10 ^ k := by
  rw [← neg_neg k, ← hn, zpow_neg, zpow_natCast, div_eq_mul_inv]

/-- All digits stand behind the point, with zeros in front of them. -/
theorem shows_behind (hne : ds ≠ []) (hdigits : ∀ c ∈ ds, isDigit c = true)
    (hn : (n : ℤ) + ds.length = -k) :
    Shows (digitsValue ds) k ['0'] (List.replicate n '0' ++ ds) := by
  have hlength : ((List.replicate n '0' ++ ds).length : ℤ) = -k := by
    rw [List.length_append, List.length_replicate]
    exact hn
  refine ⟨⟨by simp, by simp [hne], by simp [isDigit], ?_, fun _ ↦ rfl⟩, by omega, ?_⟩
  · exact List.forall_mem_append.2 ⟨fun c ↦ isDigit_of_mem_replicate, hdigits⟩
  · have hzeros : ['0'] ++ (List.replicate n '0' ++ ds) = List.replicate (n + 1) '0' ++ ds := rfl
    rw [hzeros, digitsValue_append, digitsValue_replicate_zero, mul_zero, zero_add]
    exact div_pow_eq _ hlength

/-- The point stands among the digits. -/
theorem shows_among (hfirst : first ≠ '0') (hdigits : ∀ c ∈ first :: rest, isDigit c = true)
    (hlong : n < rest.length) (hn : (n : ℤ) - rest.length = k) :
    Shows (digitsValue (first :: rest)) k (first :: rest.take n) (rest.drop n) := by
  obtain ⟨hdigit, hrest⟩ := List.forall_mem_cons.1 hdigits
  have hlength : ((rest.drop n).length : ℤ) = -k := by
    rw [List.length_drop]
    omega
  refine ⟨⟨by simp, by simpa using hlong, ?_, fun c hc ↦ hrest c (List.mem_of_mem_drop hc),
    fun h ↦ absurd (Option.some.inj h) hfirst⟩, by omega, ?_⟩
  · exact List.forall_mem_cons.2 ⟨hdigit, fun c hc ↦ hrest c (List.mem_of_mem_take hc)⟩
  · rw [List.cons_append, List.take_append_drop]
    exact div_pow_eq _ hlength

/-- All digits stand before the point, with zeros behind them. -/
theorem shows_before (hfirst : first ≠ '0') (hdigits : ∀ c ∈ first :: rest, isDigit c = true)
    (n : ℕ) :
    Shows (digitsValue (first :: rest)) n (first :: rest ++ List.replicate n '0') ['0'] := by
  refine ⟨⟨by simp, by simp, ?_, by simp [isDigit],
    fun h ↦ absurd (Option.some.inj h) hfirst⟩, by simp, ?_⟩
  · exact List.forall_mem_append.2 ⟨hdigits, fun c ↦ isDigit_of_mem_replicate⟩
  · have hzeros : first :: rest ++ List.replicate n '0' ++ ['0'] =
        (first :: rest) ++ List.replicate (n + 1) '0' := by
      rw [List.replicate_succ', List.append_assoc]
    rw [hzeros, digitsValue_append, digitsValue_replicate_zero, List.length_replicate]
    simp only [Nat.pow_eq, List.length_singleton, zpow_natCast]
    push_cast
    ring

end

/-- The text of a number times a power of ten has the digits of the number before and behind its
point. -/
theorem exists_withPoint {d : ℕ} (hd : 0 < d) (k : ℤ) : ∃ whole fraction,
    ((withPoint (digitsOf d) ((digitsOf d).length + k)).1 ++ '.' ::
      (if (withPoint (digitsOf d) ((digitsOf d).length + k)).2.isEmpty then ['0']
        else (withPoint (digitsOf d) ((digitsOf d).length + k)).2)) = whole ++ '.' :: fraction ∧
    Shows d k whole fraction := by
  have hdigits : ∀ c ∈ digitsOf d, isDigit c = true := fun c ↦ isDigit_of_mem_toDigits
  have hhead : (digitsOf d).head? ≠ some '0' := head?_toDigits hd.ne'
  obtain ⟨first, rest, hds⟩ := List.exists_cons_of_ne_nil (Nat.toDigits_ne_nil (b := 10) (n := d))
  replace hds : digitsOf d = first :: rest := hds
  have hvalue : digitsValue (first :: rest) = d := hds ▸ digitsValue_toDigits d
  rw [hds] at hdigits hhead ⊢
  have hfirst : first ≠ '0' := fun h ↦ hhead (congrArg some h)
  subst hvalue
  rw [withPoint]
  split
  next hpoint =>
    have hzeros :
        ((((first :: rest).length : ℤ) + k).natAbs : ℤ) + (first :: rest).length = -k := by
      omega
    exact ⟨_, _, by simp, shows_behind (List.cons_ne_nil _ _) hdigits hzeros⟩
  next hpoint =>
    obtain ⟨n, hn⟩ : ∃ n : ℕ, (n : ℤ) = rest.length + k := by
      rw [List.length_cons] at hpoint
      exact ⟨(rest.length + k).toNat, by omega⟩
    have htoNat : (((first :: rest).length : ℤ) + k).toNat = n + 1 := by
      rw [List.length_cons]
      omega
    rw [htoNat]
    -- The point stands among the digits, or behind zeros that follow them.
    by_cases hlong : n < rest.length
    · have hfill : n - rest.length = 0 := by omega
      have hshort : ¬ rest.length ≤ n := by omega
      exact ⟨_, _, by simp [hfill, hshort], shows_among hfirst hdigits hlong (by omega)⟩
    · obtain ⟨zeros, rfl⟩ : ∃ zeros : ℕ, zeros = k := ⟨k.toNat, by omega⟩
      have hfill : n - rest.length = zeros := by omega
      refine ⟨_, _, ?_, shows_before hfirst hdigits zeros⟩
      simp [List.take_of_length_le (not_lt.1 hlong), hfill, not_lt.1 hlong]

/-- The text of a positive double is a number in the interval around it. -/
theorem exists_positionalAbs {x : Float} (h : IsDouble m q) (hx : decode x = (m, q)) :
    ∃ whole fraction, positionalAbs x = whole ++ '.' :: fraction ∧ IsPositional whole fraction ∧
      fraction.length ≤ 418 ∧
      Rounds m q (digitsValue (whole ++ fraction) / 10 ^ fraction.length) := by
  obtain ⟨d, k, heq, hpos, hk, hrounds⟩ := exists_shortest h hx
  obtain ⟨whole, fraction, htext, hshows⟩ := exists_withPoint hpos k
  have hlength := hshows.length_le
  refine ⟨whole, fraction, ?_, hshows.isPositional, by omega, hshows.value_eq ▸ hrounds⟩
  rw [← htext, positionalAbs, heq]

/-- The numbers that round to a double are neither too small nor too large to be read. -/
theorem bounds_of_rounds (h : IsDouble m q) (hmax : q ≤ 971) {v : ℚ} (hv : Rounds m q v) :
    (10 : ℚ) ^ (-401 : ℤ) ≤ v ∧ v ≤ 10 ^ (399 : ℤ) := by
  have hscale : (0 : ℚ) < 2 ^ q := zpow_pos two_pos q
  have hm : (1 : ℚ) ≤ m := by exact_mod_cast h.pos
  have hm' : (m : ℚ) + 1 ≤ 2 ^ 53 := by exact_mod_cast h.lt
  constructor
  · -- The least double is `2 ^ (-1074)`, and what rounds to it is at least half as large.
    calc (10 : ℚ) ^ (-401 : ℤ) ≤ 2 ^ (-1075 : ℤ) := @ten_zpow_neg_le 1075 401 (by decide)
      _ = 1 / 2 * 2 ^ (-1074 : ℤ) := by
        rw [one_div, ← zpow_neg_one, ← zpow_add₀ two_ne_zero]
        rfl
      _ ≤ (m - 1 / 2) * 2 ^ q :=
        mul_le_mul (by linarith) (zpow_le_zpow_right₀ one_le_two h.min) (by positivity)
          (by linarith)
      _ ≤ v := hv.low
  · calc v ≤ (m + 1 / 2) * 2 ^ q := hv.high
      _ ≤ 2 ^ 53 * 2 ^ (971 : ℤ) :=
        mul_le_mul (by linarith) (zpow_le_zpow_right₀ one_le_two hmax) hscale.le (by positivity)
      _ = 2 ^ 1024 := by
        rw [zpow_ofNat, ← pow_add]
      _ ≤ 10 ^ (399 : ℤ) := by
        rw [zpow_ofNat]
        exact two_pow_le_ten_pow (by decide)

/-- **The double next to a number in the interval of a double is this double.** -/
theorem nearest_eq (h : IsDouble m q) (hmax : q ≤ 971) {d n : ℕ} (hn : 0 < n) (hn' : n ≤ 418)
    (hrounds : Rounds m q (d / 10 ^ n)) :
    nearest d (-n) = ofUnpacked (.finite .positive m q h.pos) := by
  have hten : (1 : ℚ) < 10 := by norm_num
  have hden : (0 : ℚ) < 10 ^ n := by positivity
  obtain ⟨hge, hle⟩ := bounds_of_rounds h hmax hrounds
  have hd : 0 < d := by
    have := (div_pos_iff_of_pos_right hden).1 ((zpow_pos (by norm_num) _).trans_le hge)
    exact_mod_cast this
  obtain ⟨hlow, hhigh⟩ := length_digitsOf_bounds hd
  have hlength : 0 < (digitsOf d).length := Nat.length_toDigits_pos
  have hsize (l : ℕ) : (10 : ℚ) ^ ((l : ℤ) - n) = 10 ^ l / 10 ^ n := by
    rw [zpow_sub₀ (by norm_num), zpow_natCast, zpow_natCast]
  -- The number of digits bounds the size, and so no shortcut for very small or large numbers
  -- applies.
  have hsmall : -400 ≤ ((digitsOf d).length : ℤ) + -n := by
    have hlt : (d : ℚ) / 10 ^ n < 10 ^ (((digitsOf d).length : ℤ) - n) := by
      rw [hsize]
      exact div_lt_div_of_pos_right (by exact_mod_cast hhigh) hden
    have := (zpow_lt_zpow_iff_right₀ hten).1 (hge.trans_lt hlt)
    omega
  have hlarge : ((digitsOf d).length : ℤ) + -n ≤ 400 := by
    have hle' : (10 : ℚ) ^ (((digitsOf d).length - 1 : ℕ) - (n : ℤ)) ≤ d / 10 ^ n := by
      rw [hsize]
      exact div_le_div_of_nonneg_right (by exact_mod_cast hlow) hden.le
    have := (zpow_le_zpow_iff_right₀ hten).1 (hle'.trans hle)
    omega
  have hfalse : ¬ (decide (d = 0) || decide (((digitsOf d).length : ℤ) + -n < -400)) = true := by
    simp only [Bool.or_eq_true, decide_eq_true_eq]
    omega
  have hneg : decide (-(n : ℤ) < 0) = true := by
    rw [decide_eq_true_eq]
    omega
  rw [nearest, if_neg hfalse, if_neg (by omega), hneg, Int.natAbs_neg, Int.natAbs_natCast]
  exact ofScientific_eq h hd hn (by omega) hrounds

/-- The sign in front of a text. -/
def minus : Float.Model.UnpackedFloat.Sign → List Char
  | .positive => []
  | .negative => ['-']

/-- The text of a double other than zero has a sign in front of the text of its size. -/
theorem signed_finite (names : Names) (abs : Float → List Char) (h : IsDouble m q) (hmax : q ≤ 971)
    (sign : Float.Model.UnpackedFloat.Sign) :
    signed names abs (ofUnpacked (.finite sign m q h.pos)) =
      String.ofList (minus sign ++ abs (ofUnpacked (.finite .positive m q h.pos))) := by
  have hunpack := unpack_finite h hmax sign
  have hpositive := unpack_finite h hmax .positive
  have hnan : (ofUnpacked (.finite sign m q h.pos)).isNaN = false := by
    show (ofUnpacked (.finite sign m q h.pos)).toModel.unpack.isNaN = false
    rw [hunpack]
    rfl
  -- The tests for infinity and zero are computed on what the double unpacks to.
  have hinf : (ofUnpacked (.finite .positive m q h.pos)).isInf = false := by
    show (ofUnpacked (.finite .positive m q h.pos)).toModel.unpack.isInf = false
    rw [hpositive]
    rfl
  have hzero : (ofUnpacked (.finite .positive m q h.pos) == 0) = false := by
    show ((ofUnpacked (.finite .positive m q h.pos)).toModel.unpack.compare _ == some .eq) = false
    rw [hpositive]
    rfl
  have hsign : (ofUnpacked (.finite sign m q h.pos)).toBits.toNat / Nat.pow 2 63 =
      sign.toBitVec.toNat := (decode_of_unpack hunpack).2.2.2
  rw [signed, hnan, abs_finite h hmax]
  simp only [hinf, hzero, hsign]
  cases sign <;> rfl

end BslLint.Decimal
