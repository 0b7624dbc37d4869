import BslLint.Data.Decimal
import Mathlib

/-!
# Rounding to doubles

Doubles are computed with by the model that Lean has of them: a result is a whole number with two
bits that say how much is missing (`Stands`), and this is rounded to a number of 53 bits. What comes
out is the double in whose interval the exact result is (`roundWithAccuracy_eq`). So it is for
quotients, and with them for decimal numbers, which are quotients by a power of ten
(`ofScientific_eq`).
-/

namespace BslLint.Double

open Float.Model (Format totalExponent UnpackedFloat)
open Float.Model.UnpackedFloat

/-! ### Rounding to whole numbers -/

/-- What a whole number with its two bits stands for: the bits say on which side of the middle
between two whole numbers a number lies. -/
def Stands : ExtendedMantissa → ℚ → Prop
  | ⟨m, false, false⟩, w => w = m
  | ⟨m, false, true⟩, w => (m : ℚ) < w ∧ w < m + 1 / 2
  | ⟨m, true, false⟩, w => w = m + 1 / 2
  | ⟨m, true, true⟩, w => (m : ℚ) + 1 / 2 < w ∧ w < m + 1

/-- A whole number is nearest to a number, and even if another one is as near. -/
structure IsNearest (m : ℕ) (w : ℚ) : Prop where
  low : (m : ℚ) - 1 / 2 ≤ w
  high : w ≤ m + 1 / 2
  odd : m % 2 = 1 → (m : ℚ) - 1 / 2 < w ∧ w < m + 1 / 2

section

variable {em : ExtendedMantissa} {w : ℚ}

theorem Stands.le (h : Stands em w) : (em.mantissa : ℚ) ≤ w ∧ w < em.mantissa + 1 := by
  obtain ⟨m, _ | _, _ | _⟩ := em <;> simp only [Stands] at h <;> dsimp only <;>
    constructor <;> linarith

/-- Taking one bit away halves what the number stands for. -/
theorem Stands.shiftRightOne (h : Stands em w) : Stands em.shiftRightOne (w / 2) := by
  obtain ⟨m, r, s⟩ := em
  have hm : (m : ℚ) = 2 * (m / 2 : ℕ) + (m % 2 : ℕ) := by exact_mod_cast (Nat.div_add_mod m 2).symm
  obtain hmod | hmod := Nat.mod_two_eq_zero_or_one m <;> rw [hmod] at hm <;>
    push_cast at hm <;> cases r <;> cases s <;>
    simp only [Stands, hm, ExtendedMantissa.shiftRightOne, hmod] at h ⊢ <;> grind

theorem Stands.shiftRight (h : Stands em w) (n : ℕ) : Stands (em >>> n) (w / 2 ^ n) := by
  induction n with
  | zero =>
    rw [pow_zero, div_one]
    exact h
  | succ n ih =>
    have hw : w / 2 ^ (n + 1) = w / 2 ^ n / 2 := by ring
    rw [hw]
    exact ih.shiftRightOne

/-- The two bits are enough to round by. -/
theorem Stands.roundedMantissa_eq {m : ℕ} (h : Stands em w) (hm : IsNearest m w) :
    em.roundedMantissa = m := by
  obtain ⟨n, r, s⟩ := em
  obtain ⟨hlow, hhigh, hodd⟩ := hm
  -- the rounded number is as near as it says
  have hlt {a b : ℕ} (hab : (a : ℚ) < b + 1) : a ≤ b := Nat.lt_succ_iff.1 (by exact_mod_cast hab)
  cases r <;> cases s <;>
    simp only [Stands, ExtendedMantissa.roundedMantissa, ExtendedMantissa.accuracy,
      Accuracy.roundToNearestEven] at h ⊢
  · exact le_antisymm (hlt (by linarith)) (hlt (by linarith))
  · exact le_antisymm (hlt (by linarith)) (hlt (by linarith))
  · have hlow' : n ≤ m := hlt (by linarith)
    have hhigh' : m ≤ n + 1 := hlt (by push_cast; linarith)
    obtain rfl | rfl : m = n ∨ m = n + 1 := by omega
    · obtain hmod | hmod := Nat.mod_two_eq_zero_or_one m
      · rw [hmod, add_zero]
      · linarith [(hodd hmod).2]
    · obtain hmod | hmod := Nat.mod_two_eq_zero_or_one n
      · have := (hodd (by omega)).1
        push_cast at this
        linarith
      · rw [hmod]
  · exact le_antisymm (hlt (by push_cast; linarith)) (hlt (by push_cast; linarith))

/-- The quotient of two whole numbers, with what is known of the rest. -/
theorem stands_div (n : ℕ) {d : ℕ} (hd : 0 < d) :
    Stands (.ofMantissaAndAccuracy (n / d) (accuracyOfFraction (n % d) d)) (n / d) := by
  have hn : (n : ℚ) = d * (n / d : ℕ) + (n % d : ℕ) := by exact_mod_cast (Nat.div_add_mod n d).symm
  have hpos : (0 : ℚ) < d := by exact_mod_cast hd
  have hlt : ((n % d : ℕ) : ℚ) < d := by exact_mod_cast Nat.mod_lt n hd
  have hw : (n : ℚ) / d = (n / d : ℕ) + (n % d : ℕ) / d := by
    nth_rewrite 1 [hn]
    field_simp
  rw [hw, accuracyOfFraction]
  split
  next hzero => simp [ExtendedMantissa.ofMantissaAndAccuracy, Stands, hzero]
  next hzero =>
    have hfraction : (0 : ℚ) < (n % d : ℕ) / d :=
      div_pos (by exact_mod_cast Nat.pos_of_ne_zero hzero) hpos
    -- The rest is compared with a half of the divisor, and this is the accuracy that is kept.
    cases hcompare : compare (2 * (n % d)) d with
    | lt =>
      have h : (2 * (n % d : ℕ) : ℚ) < d := by exact_mod_cast Nat.compare_eq_lt.1 hcompare
      have : ((n % d : ℕ) : ℚ) / d < 1 / 2 := by rw [div_lt_div_iff₀ hpos two_pos]; linarith
      exact ⟨by linarith, by linarith⟩
    | eq =>
      have h : (2 * (n % d : ℕ) : ℚ) = d := by exact_mod_cast Nat.compare_eq_eq.1 hcompare
      have : ((n % d : ℕ) : ℚ) / d = 1 / 2 := by rw [div_eq_div_iff hpos.ne' two_ne_zero]; linarith
      exact congrArg _ this
    | gt =>
      have h : (d : ℚ) < 2 * (n % d : ℕ) := by exact_mod_cast Nat.compare_eq_gt.1 hcompare
      have : (1 : ℚ) / 2 < (n % d : ℕ) / d := by rw [div_lt_div_iff₀ two_pos hpos]; linarith
      have : ((n % d : ℕ) : ℚ) / d < 1 := (div_lt_one hpos).2 hlt
      exact ⟨by linarith, by linarith⟩

end

/-! ### Doubles -/

/-- A whole number of at most 53 bits and the power of two to scale it by. Fewer bits are there only
at the least power. -/
structure IsDouble (m : ℕ) (q : ℤ) : Prop where
  pos : 0 < m
  lt : m < 2 ^ 53
  min : -1074 ≤ q
  normal : 2 ^ 52 ≤ m ∨ q = -1074

/-- A positive number rounds to a double. Below a power of two the doubles are nearer to each
other. -/
structure Rounds (m : ℕ) (q : ℤ) (v : ℚ) : Prop where
  low : (m - 1 / 2) * 2 ^ q ≤ v
  high : v ≤ (m + 1 / 2) * 2 ^ q
  odd : m % 2 = 1 → (m - 1 / 2) * 2 ^ q < v ∧ v < (m + 1 / 2) * 2 ^ q
  power : m = 2 ^ 52 → -1074 < q → (m - 1 / 4) * 2 ^ q ≤ v

theorem log2_eq {m k : ℕ} (h : 2 ^ k ≤ m) (hlt : m < 2 ^ (k + 1)) : m.log2 = k :=
  (Nat.log2_eq_iff (Nat.two_pow_pos k |>.trans_le h).ne').2 ⟨h, hlt⟩

theorem targetExponent_eq (t : ℤ) :
    Format.binary64.targetExponent t = max (t - 53) (-1074) := rfl

theorem mantissa_ofMantissaAndAccuracy (n : ℕ) (acc : Accuracy) :
    (ExtendedMantissa.ofMantissaAndAccuracy n acc).mantissa = n := by
  obtain _ | _ | _ | _ := acc <;> rfl

/-- A number is taken to the exponent at which 53 bits of it are left, if there are any. -/
theorem exists_shiftToTargetExponent {n : ℕ} {e t : ℤ} {acc : Accuracy} {w : ℚ}
    (h : Stands (.ofMantissaAndAccuracy n acc) w) (hlow : 2 ^ (t - 1) ≤ w * 2 ^ e)
    (hhigh : w * 2 ^ e < 2 ^ t) (he : e ≤ Format.binary64.targetExponent t) :
    ∃ em, shiftToTargetExponent .binary64 n e acc = (em, Format.binary64.targetExponent t) ∧
      Stands em (w * 2 ^ e / 2 ^ Format.binary64.targetExponent t) := by
  have hscale : (0 : ℚ) < 2 ^ e := zpow_pos two_pos e
  obtain ⟨hn, hn'⟩ : (n : ℚ) ≤ w ∧ w < n + 1 := by
    have hle := h.le
    rwa [mantissa_ofMantissaAndAccuracy] at hle
  have htarget : Format.binary64.targetExponent (totalExponent n e) =
      Format.binary64.targetExponent t := by
    -- Of no bits at all the total exponent says nothing, but then the number is below `2 ^ e`.
    obtain rfl | hpos := Nat.eq_zero_or_pos n
    · have hlt : (2 : ℚ) ^ (t - 1) < 2 ^ e :=
        hlow.trans_lt ((mul_lt_iff_lt_one_left hscale).2 (by simpa using hn'))
      have hte : t - 1 < e := (zpow_lt_zpow_iff_right₀ one_lt_two).1 hlt
      simp only [targetExponent_eq, totalExponent, Nat.log2_zero] at he ⊢
      omega
    · have hlog : (2 : ℚ) ^ n.log2 ≤ n := by exact_mod_cast Nat.log2_self_le hpos.ne'
      have hlog' : (n : ℚ) + 1 ≤ 2 ^ (n.log2 + 1) := by exact_mod_cast Nat.lt_log2_self
      have hlt : (2 : ℚ) ^ (n.log2 + e) < 2 ^ t := by
        rw [zpow_add₀ two_ne_zero, zpow_natCast]
        exact (mul_le_mul_of_nonneg_right (hlog.trans hn) hscale.le).trans_lt hhigh
      have hlt' : (2 : ℚ) ^ (t - 1) < 2 ^ ((n.log2 + 1 : ℕ) + e) := by
        rw [zpow_add₀ two_ne_zero, zpow_natCast]
        exact hlow.trans_lt (mul_lt_mul_of_pos_right (hn'.trans_le hlog') hscale)
      have hge := (zpow_lt_zpow_iff_right₀ one_lt_two).1 hlt
      have hle := (zpow_lt_zpow_iff_right₀ one_lt_two).1 hlt'
      congr 1
      rw [totalExponent]
      omega
  refine ⟨ExtendedMantissa.ofMantissaAndAccuracy n acc >>>
    (Format.binary64.targetExponent t - e).toNat, ?_, ?_⟩
  · rw [shiftToTargetExponent, htarget, shiftToExponent]
    exact congrArg (Prod.mk _) (by omega)
  · have hw : w * 2 ^ e / 2 ^ Format.binary64.targetExponent t =
        w / 2 ^ (Format.binary64.targetExponent t - e).toNat := by
      rw [← zpow_natCast, Int.toNat_of_nonneg (by omega), zpow_sub₀ two_ne_zero]
      field_simp
    rw [hw]
    exact h.shiftRight _

/-- A double is taken to the exponent that it has. -/
theorem IsDouble.targetExponent_eq {m : ℕ} {q : ℤ} (h : IsDouble m q) :
    Format.binary64.targetExponent (totalExponent m q) = q := by
  have hlt : m.log2 < 53 := (Nat.log2_lt h.pos.ne').2 h.lt
  have hmin := h.min
  rw [Double.targetExponent_eq, totalExponent]
  obtain hnormal | hq := h.normal
  · have hlog : m.log2 = 52 := log2_eq hnormal h.lt
    omega
  · omega

/-- A double that was rounded to is kept, and one bit more is taken away exactly. -/
theorem shiftToTargetExponent_exact {m : ℕ} {q : ℤ} (h : IsDouble m q) :
    shiftToTargetExponent .binary64 m q .exact = (⟨m, false, false⟩, q) := by
  rw [shiftToTargetExponent, h.targetExponent_eq, shiftToExponent, Int.sub_self]
  simp [ExtendedMantissa.ofMantissaAndAccuracy, HShiftRight.hShiftRight, Nat.repeat]

/-- The least double of a power of two is twice as fine below. -/
theorem shiftToTargetExponent_power {q : ℤ} (h : -1074 < q) :
    shiftToTargetExponent .binary64 (2 ^ 53) (q - 1) .exact = (⟨2 ^ 52, false, false⟩, q) := by
  have htarget : Format.binary64.targetExponent (totalExponent (2 ^ 53) (q - 1)) = q := by
    rw [targetExponent_eq, totalExponent, Nat.log2_two_pow]
    omega
  have hone : (q - (q - 1)).toNat = 1 := by omega
  rw [shiftToTargetExponent, htarget, shiftToExponent, hone]
  exact congrArg (Prod.mk _) (by omega)

/-- The exponent that a number is taken to is that of its double, or one less, below a power of
two. -/
theorem Rounds.targetExponent_eq {m : ℕ} {q t : ℤ} {v : ℚ} (hv : Rounds m q v) (hmq : IsDouble m q)
    (hlow : 2 ^ (t - 1) ≤ v) (hhigh : v < 2 ^ t) :
    Format.binary64.targetExponent t = q ∨
      Format.binary64.targetExponent t = q - 1 ∧ m = 2 ^ 52 ∧ -1074 < q ∧ v < 2 ^ 52 * 2 ^ q := by
  have hscale : (0 : ℚ) < 2 ^ q := zpow_pos two_pos q
  have hm' : (m : ℚ) + 1 ≤ 2 ^ 53 := by exact_mod_cast hmq.lt
  have hmin := hmq.min
  -- Rounding may reach the next power of two but not go beyond it.
  have hle : t ≤ 53 + q := by
    have hlt : v < 2 ^ (53 + q) := by
      rw [zpow_add₀ two_ne_zero]
      refine hv.high.trans_lt (mul_lt_mul_of_pos_right ?_ hscale)
      rw [zpow_ofNat]
      linarith
    have := (zpow_lt_zpow_iff_right₀ one_lt_two).1 (hlow.trans_lt hlt)
    omega
  rw [Double.targetExponent_eq]
  -- Only just below a power of two the number has an exponent less than its double.
  by_cases hbelow : v < 2 ^ (52 + q) ∧ -1074 < q
  · obtain ⟨hbelow, hq⟩ := hbelow
    have hlt := (zpow_lt_zpow_iff_right₀ one_lt_two).1 (hlow.trans_lt hbelow)
    rw [zpow_add₀ two_ne_zero, zpow_ofNat] at hbelow
    have hpower : m = 2 ^ 52 := by
      refine le_antisymm ?_ (hmq.normal.resolve_right (by omega))
      have hlt := lt_of_mul_lt_mul_right (hv.low.trans_lt hbelow) hscale.le
      have : (m : ℚ) < (2 ^ 52 : ℕ) + 1 := by push_cast; linarith
      exact Nat.lt_succ_iff.1 (by exact_mod_cast this)
    have hclose := hv.power hpower hq
    have hcast : (m : ℚ) = 2 ^ 52 := by exact_mod_cast hpower
    rw [hcast] at hclose
    have hlt' : (2 : ℚ) ^ (51 + q) < 2 ^ t := by
      rw [zpow_add₀ two_ne_zero, zpow_ofNat]
      exact ((mul_lt_mul_of_pos_right (by norm_num) hscale).trans_le hclose).trans hhigh
    have hge := (zpow_lt_zpow_iff_right₀ one_lt_two).1 hlt'
    exact .inr ⟨by omega, hpower, hq, hbelow⟩
  · have hge : q ≤ -1074 ∨ 52 + q < t := by
      obtain hle | hq := not_and_or.1 hbelow
      · exact .inr ((zpow_lt_zpow_iff_right₀ one_lt_two).1 ((not_lt.1 hle).trans_lt hhigh))
      · exact .inl (not_lt.1 hq)
    exact .inl (by omega)

/-- **Rounding gives the double whose interval a number is in.** -/
theorem roundWithAccuracy_eq {m : ℕ} {q : ℤ} (hmq : IsDouble m q) {n : ℕ} {e : ℤ} {acc : Accuracy}
    {w : ℚ} (h : Stands (.ofMantissaAndAccuracy n acc) w) (hv : Rounds m q (w * 2 ^ e))
    (he : ∀ t : ℤ, w * 2 ^ e < 2 ^ t → e ≤ Format.binary64.targetExponent t) (sign : Sign) :
    roundWithAccuracy .binary64 sign n e acc = .finite sign m q hmq.pos := by
  have hscale : (0 : ℚ) < 2 ^ q := zpow_pos two_pos q
  have hm : (1 : ℚ) ≤ m := by exact_mod_cast hmq.pos
  have hpos : 0 < w * 2 ^ e := (mul_pos (by linarith) hscale).trans_le hv.low
  obtain ⟨t, hlow, hhigh⟩ : ∃ t : ℤ, (2 : ℚ) ^ (t - 1) ≤ w * 2 ^ e ∧ w * 2 ^ e < 2 ^ t := by
    obtain ⟨t, hlow, hhigh⟩ := exists_mem_Ico_zpow hpos one_lt_two
    exact ⟨t + 1, by rwa [add_sub_cancel_right], hhigh⟩
  obtain ⟨em, hshift, hem⟩ := exists_shiftToTargetExponent h hlow hhigh (he t hhigh)
  rw [roundWithAccuracy, hshift]
  dsimp only
  obtain htarget | ⟨htarget, rfl, hq, hbelow⟩ := hv.targetExponent_eq hmq hlow hhigh
  · rw [htarget] at hem
    have hrounded : em.roundedMantissa = m := by
      refine hem.roundedMantissa_eq
        ⟨(le_div_iff₀ hscale).2 hv.low, (div_le_iff₀ hscale).2 hv.high, fun hodd ↦ ?_⟩
      obtain ⟨hlow, hhigh⟩ := hv.odd hodd
      exact ⟨(lt_div_iff₀ hscale).2 hlow, (div_lt_iff₀ hscale).2 hhigh⟩
    rw [htarget, hrounded, shiftToTargetExponent_exact hmq]
    exact dif_neg hmq.pos.ne'
  · -- below a power of two the numbers have a bit more, and the double is the next power
    have hclose := hv.power rfl hq
    push_cast at hclose
    have hhalf : w * 2 ^ e / 2 ^ (q - 1) = 2 * (w * 2 ^ e) / 2 ^ q := by
      rw [zpow_sub_one₀ two_ne_zero]
      field_simp
    rw [htarget, hhalf] at hem
    have hrounded : em.roundedMantissa = 2 ^ 53 := by
      refine hem.roundedMantissa_eq ⟨?_, ?_, fun hodd ↦ absurd hodd (by decide)⟩
      · rw [le_div_iff₀ hscale]
        push_cast
        linarith
      · rw [div_le_iff₀ hscale]
        push_cast
        linarith
    rw [htarget, hrounded, shiftToTargetExponent_power hq]
    rfl

/-- **A quotient is rounded to the double whose interval it is in.** -/
theorem div_eq {m : ℕ} {q : ℤ} (hmq : IsDouble m q) {m₁ m₂ : ℕ} {e₁ e₂ : ℤ} (h₁ : 0 < m₁)
    (h₂ : 0 < m₂) (hv : Rounds m q (m₁ * 2 ^ e₁ / (m₂ * 2 ^ e₂))) :
    UnpackedFloat.div .binary64 (.finite .positive m₁ e₁ h₁) (.finite .positive m₂ e₂ h₂) =
      .finite .positive m q hmq.pos := by
  have hm₁ : (0 : ℚ) < m₁ := by exact_mod_cast h₁
  have hm₂ : (0 : ℚ) < m₂ := by exact_mod_cast h₂
  -- the exponent of the quotient is low enough
  have htarget (t : ℤ) (ht : (m₁ * 2 ^ e₁ / (m₂ * 2 ^ e₂) : ℚ) < 2 ^ t) :
      totalExponent m₁ e₁ - totalExponent m₂ e₂ ≤ t := by
    have hlog₁ : (2 : ℚ) ^ m₁.log2 ≤ m₁ := by exact_mod_cast Nat.log2_self_le h₁.ne'
    have hlog₂ : (m₂ : ℚ) < 2 ^ (m₂.log2 + 1) := by exact_mod_cast Nat.lt_log2_self
    have hlt : (2 : ℚ) ^ (m₁.log2 + e₁) < 2 ^ (t + ((m₂.log2 + 1 : ℕ) + e₂)) := by
      rw [zpow_add₀ two_ne_zero, zpow_add₀ two_ne_zero, zpow_add₀ two_ne_zero, zpow_natCast,
        zpow_natCast]
      rw [div_lt_iff₀ (mul_pos hm₂ (zpow_pos two_pos e₂))] at ht
      refine (mul_le_mul_of_nonneg_right hlog₁ (zpow_pos two_pos e₁).le).trans_lt (ht.trans ?_)
      exact mul_lt_mul_of_pos_left (mul_lt_mul_of_pos_right hlog₂ (zpow_pos two_pos e₂))
        (zpow_pos two_pos t)
    have := (zpow_lt_zpow_iff_right₀ one_lt_two).1 hlt
    rw [totalExponent, totalExponent]
    omega
  have hdiv :
      UnpackedFloat.div .binary64 (.finite .positive m₁ e₁ h₁) (.finite .positive m₂ e₂ h₂) =
      match divCore .binary64 m₁ e₁ m₂ e₂ with
      | (n, e, acc) => roundWithAccuracy .binary64 .positive n e acc := rfl
  generalize he : min (e₁ - e₂)
    (Format.binary64.targetExponent (totalExponent m₁ e₁ - totalExponent m₂ e₂)) = e at *
  have hcore : divCore .binary64 m₁ e₁ m₂ e₂ = (m₁ <<< (e₁ - e₂ - e).toNat / m₂, e,
      accuracyOfFraction (m₁ <<< (e₁ - e₂ - e).toNat % m₂) m₂) := by
    rw [← he]
    rfl
  have hvalue : ((m₁ <<< (e₁ - e₂ - e).toNat : ℕ) / m₂ : ℚ) * 2 ^ e =
      m₁ * 2 ^ e₁ / (m₂ * 2 ^ e₂) := by
    rw [Nat.shiftLeft_eq]
    push_cast
    rw [← zpow_natCast, Int.toNat_of_nonneg (by omega), zpow_sub₀ two_ne_zero,
      zpow_sub₀ two_ne_zero]
    field_simp
  rw [hdiv, hcore]
  refine roundWithAccuracy_eq hmq (stands_div _ h₂) (hvalue ▸ hv) (fun t ht ↦ ?_) _
  have := htarget t (hvalue ▸ ht)
  rw [targetExponent_eq] at he ⊢
  omega

/-- A double rounds to itself. -/
theorem roundWithAccuracy_self {m : ℕ} {q : ℤ} (h : IsDouble m q) (sign : Sign) :
    roundWithAccuracy .binary64 sign m q .exact = .finite sign m q h.pos := by
  have hshift := shiftToTargetExponent_exact h
  rw [roundWithAccuracy, hshift]
  dsimp only
  rw [ExtendedMantissa.roundedMantissa, ExtendedMantissa.accuracy, Accuracy.roundToNearestEven,
    hshift]
  exact dif_neg h.pos.ne'

/-! ### Doubles as they are kept -/

/-- A double by its parts. -/
def ofUnpacked (u : UnpackedFloat) : Float := .ofModel (.pack u)

theorem ofUnpacked_unpack (x : Float) : ofUnpacked x.toModel.unpack = x := by
  obtain ⟨⟨⟨bits⟩, hvalid⟩⟩ := x
  have h := pack_unpack_of_valid hvalid
  rw [ofUnpacked, Float.Model.unpack, Float.Model.pack]
  congr

section

variable {m : ℕ} {q : ℤ}

/-- The last 52 bits are those of the number, -/
theorem toNat_mantissa (b : BitVec 64) :
    (@unpackMantissa .binary64 b).toNat = b.toNat % 2 ^ 52 := by
  rw [unpackMantissa_def, BitVec.extractLsb'_toNat, Nat.shiftRight_zero]

/-- the 11 before them those of the exponent, -/
theorem toNat_exponent (b : BitVec 64) :
    (@unpackExponent .binary64 b).toNat = b.toNat / 2 ^ 52 % 2048 := by
  rw [unpackExponent_def, BitVec.extractLsb'_toNat, Nat.shiftRight_eq_div_pow]
  rfl

/-- and the first is that of the sign. -/
theorem toNat_sign (b : BitVec 64) :
    (@unpackSign .binary64 b).toNat = b.toNat / 2 ^ 63 := by
  have hlt : b.toNat < 2 ^ 64 := b.isLt
  rw [unpackSign_def, BitVec.extractLsb'_toNat, Nat.shiftRight_eq_div_pow]
  show b.toNat / 2 ^ 63 % 2 = _
  omega

/-- The bits of a double: where it has all its bits, the first of them is not kept. -/
theorem pack_finite (h : IsDouble m q) (hmax : q ≤ 971) (sign : Sign) :
    UnpackedFloat.pack .binary64 (.finite sign m q h.pos) = packComponents .binary64 sign
      (BitVec.ofNat 11 (if 2 ^ 52 ≤ m then (q + 1075).toNat else 0)) (BitVec.ofNat 52 m) := by
  have hmin := h.min
  have hbias : (q + (Format.binary64.exponentBias : ℕ) +
      (Format.binary64.mantissaBitsWithoutImplicit : ℕ)).toNat = (q + 1075).toNat := by
    show (q + 1023 + 52).toNat = _
    omega
  rw [UnpackedFloat.pack]
  dsimp only
  rw [hbias, if_neg (show ¬ 2 ^ 11 ≤ (q + 1075).toNat + 1 by omega)]
  by_cases hm : 2 ^ 52 ≤ m
  · rw [log2_eq hm h.lt, if_pos hm]
    rfl
  · have hlog : m.log2 < 52 := (Nat.log2_lt h.pos.ne').2 (not_le.1 hm)
    rw [if_neg hm, if_neg]
    show ¬ m.log2 + 1 = 53
    omega

/-- The bit that is not kept stands in front of the 52 that are. -/
theorem toNat_implicit (b : BitVec 52) : (1#1 ++ b).toNat = 2 ^ 52 + b.toNat := by
  rw [BitVec.toNat_append, ← Nat.shiftLeft_add_eq_or_of_lt b.isLt]
  rfl

/-- **A double that is packed is unpacked again**, whether its first bit is kept or not. -/
theorem unpack_finite (h : IsDouble m q) (hmax : q ≤ 971) (sign : Sign) :
    (ofUnpacked (.finite sign m q h.pos)).toModel.unpack = .finite sign m q h.pos := by
  have hmin := h.min
  have hlt := h.lt
  have hpos := h.pos
  show UnpackedFloat.unpack .binary64 (UnpackedFloat.pack .binary64 _) = _
  rw [pack_finite h hmax, UnpackedFloat.unpack]
  simp only [unpackMantissa_packComponents, unpackExponent_packComponents,
    unpackSign_packComponents, Sign.ofBitVec_toBitVec]
  have hmantissa : (BitVec.ofNat 52 m).toNat = m % 2 ^ 52 := BitVec.toNat_ofNat ..
  -- The first bit is not kept if the exponent is not the least.
  by_cases hm : 2 ^ 52 ≤ m
  · have hexponent : (BitVec.ofNat 11 (q + 1075).toNat).toNat = (q + 1075).toNat := by
      rw [BitVec.toNat_ofNat]
      omega
    have hmax' : BitVec.ofNat 11 (q + 1075).toNat ≠ -1#11 := by
      rw [Ne, ← BitVec.toNat_inj, hexponent]
      show ¬ _ = 2047
      omega
    have hmin' : BitVec.ofNat 11 (q + 1075).toNat ≠ 0#11 := by
      rw [Ne, ← BitVec.toNat_inj, hexponent]
      show ¬ _ = 0
      omega
    rw [if_pos hm, if_neg hmax', if_neg hmin']
    congr 1
    · rw [toNat_implicit, hmantissa]
      omega
    · rw [hexponent]
      show ((q + 1075).toNat : ℤ) - (1023 + 52) = q
      omega
  · have hq := h.normal.resolve_left hm
    have hzero : BitVec.ofNat 52 m ≠ 0#52 := by
      rw [Ne, ← BitVec.toNat_inj, hmantissa]
      show ¬ _ = 0
      omega
    rw [if_neg hm, if_neg (by decide), if_pos rfl, dif_neg hzero]
    congr 1
    · rw [hmantissa]
      omega
    · exact hq.symm

/-- What a double is made of can be read off its bits. -/
theorem decode_of_unpack {x : Float} {sign : Sign} {hm : 0 < m}
    (h : x.toModel.unpack = .finite sign m q hm) :
    IsDouble m q ∧ q ≤ 971 ∧ Decimal.decode x = (m, q) ∧
      x.toBits.toNat / 2 ^ 63 = sign.toBitVec.toNat := by
  have hbits : x.toBits.toNat = x.toModel.toBits.toBitVec.toNat := rfl
  rw [Decimal.decode, hbits]
  rw [Float.Model.unpack] at h
  generalize x.toModel.toBits.toBitVec = b at h ⊢
  have hmantissa : b.toNat % Nat.pow 2 52 = _ := (toNat_mantissa b).symm
  have hexponent : b.toNat / Nat.pow 2 52 % 2048 = _ := (toNat_exponent b).symm
  rw [← toNat_sign]
  simp only [hmantissa, hexponent]
  rw [UnpackedFloat.unpack] at h
  have hlt : (@unpackMantissa .binary64 b).toNat < 2 ^ 52 :=
    (@unpackMantissa .binary64 b).isLt
  have hlt' : (@unpackExponent .binary64 b).toNat < 2048 :=
    (@unpackExponent .binary64 b).isLt
  have hbias : ((Format.binary64.exponentBias : ℕ) : ℤ) +
      ((Format.binary64.mantissaBitsWithoutImplicit : ℕ) : ℤ) = 1075 := rfl
  have hsign := congrArg BitVec.toNat (Sign.toBitVec_ofBitVec (@unpackSign .binary64 b))
  dsimp only at h
  -- The exponents of all ones and of all zeros stand apart.
  split at h
  next => split at h <;> exact nomatch h
  next hmax =>
    rw [← BitVec.toNat_inj] at hmax
    replace hmax : (@unpackExponent .binary64 b).toNat ≠ 2047 := hmax
    split at h
    next hzero =>
      rw [← BitVec.toNat_inj] at hzero
      replace hzero : (@unpackExponent .binary64 b).toNat = 0 := hzero
      split at h
      next => exact nomatch h
      next hf =>
        rw [UnpackedFloat.finite.injEq] at h
        obtain ⟨rfl, rfl, rfl⟩ := h
        rw [hbias, hzero, if_pos rfl]
        exact ⟨⟨hm, by omega, by omega, .inr (by omega)⟩, by omega, rfl, hsign.symm⟩
    next hzero =>
      rw [← BitVec.toNat_inj] at hzero
      replace hzero : (@unpackExponent .binary64 b).toNat ≠ 0 := hzero
      rw [UnpackedFloat.finite.injEq] at h
      obtain ⟨rfl, rfl, rfl⟩ := h
      rw [hbias, if_neg hzero, toNat_implicit, Nat.add_comm (2 ^ 52)]
      exact ⟨⟨by omega, by omega, by omega, .inl (by omega)⟩, by omega, rfl, hsign.symm⟩

/-- Without its sign a double is positive, -/
theorem abs_finite (h : IsDouble m q) (hmax : q ≤ 971) (sign : Sign) :
    (ofUnpacked (.finite sign m q h.pos)).abs = ofUnpacked (.finite .positive m q h.pos) := by
  show ofUnpacked (ofUnpacked (.finite sign m q h.pos)).toModel.unpack.abs = _
  rw [unpack_finite h hmax]
  rfl

/-- and with another sign it is negative. -/
theorem neg_finite (h : IsDouble m q) (hmax : q ≤ 971) :
    -(ofUnpacked (.finite .positive m q h.pos)) = ofUnpacked (.finite .negative m q h.pos) := by
  show ofUnpacked (ofUnpacked (.finite .positive m q h.pos)).toModel.unpack.neg = _
  rw [unpack_finite h hmax]
  rfl

end

/-! ### Decimal numbers -/

/-- The number that a positive double is. -/
def value : UnpackedFloat → ℚ
  | .finite .positive m q _ => m * 2 ^ q
  | _ => 0

/-- Only a positive double is a positive number. -/
theorem exists_of_value_pos {u : UnpackedFloat} (h : 0 < value u) :
    ∃ m q hm, u = .finite .positive m q hm := by
  match u, h with
  | .finite .positive m q hm, _ => exact ⟨m, q, hm, rfl⟩
  | .finite .negative _ _ _, h => exact absurd h (lt_irrefl 0)
  | .notANumber, h => exact absurd h (lt_irrefl 0)
  | .infinity _, h => exact absurd h (lt_irrefl 0)
  | .zero _, h => exact absurd h (lt_irrefl 0)

/-- A whole number of at most 53 bits is a double. -/
theorem value_toFloat {d : ℕ} (hd : 0 < d) (hlt : d < 2 ^ 53) :
    value d.toUInt64.toFloat.toModel.unpack = d := by
  have hlog : d.log2 < 53 := (Nat.log2_lt hd.ne').2 hlt
  -- Moved to the left until 53 bits are filled, a whole number is in the form of a double.
  have hdouble : IsDouble (d * 2 ^ (52 - d.log2)) (d.log2 - 52) := by
    have hlow := Nat.mul_le_mul_right (2 ^ (52 - d.log2)) (Nat.log2_self_le hd.ne')
    have hhigh := Nat.mul_lt_mul_of_pos_right (Nat.lt_log2_self (n := d))
      (Nat.two_pow_pos (52 - d.log2))
    rw [← Nat.pow_add] at hlow hhigh
    rw [show d.log2 + (52 - d.log2) = 52 by omega] at hlow
    rw [show d.log2 + 1 + (52 - d.log2) = 53 by omega] at hhigh
    exact ⟨by omega, hhigh, by omega, .inl hlow⟩
  have hround : UnpackedFloat.ofNat .binary64 d =
      .finite .positive (d * 2 ^ (52 - d.log2)) (d.log2 - 52) hdouble.pos := by
    have htarget : Format.binary64.targetExponent (totalExponent d 0) = d.log2 - 52 := by
      rw [targetExponent_eq, totalExponent]
      omega
    have hshift : (0 - (d.log2 - 52 : ℤ)).toNat = 52 - d.log2 := by omega
    have hcompare : compare (d : ℤ) 0 = .gt := Int.compare_eq_gt.2 (by omega)
    rw [UnpackedFloat.ofNat, UnpackedFloat.ofInt, UnpackedFloat.normalize, hcompare]
    dsimp only
    rw [UnpackedFloat.round, Int.toNat_natCast, htarget, decreaseExponent, hshift, Nat.shiftLeft_eq]
    rw [show (0 : ℤ) - (52 - d.log2 : ℕ) = d.log2 - 52 by omega]
    exact roundWithAccuracy_self hdouble .positive
  have hunpack : d.toUInt64.toFloat = ofUnpacked (UnpackedFloat.ofNat .binary64 d) := by
    have htoNat : d.toUInt64.toNat = d := by
      rw [Nat.toUInt64, UInt64.toNat_ofNat']
      omega
    rw [UInt64.toFloat, Float.Model.ofUInt64, UnpackedFloat.ofUInt64, htoNat, ofUnpacked]
  rw [hunpack, hround, unpack_finite hdouble (by omega), value]
  push_cast
  rw [mul_assoc, ← zpow_natCast, ← zpow_add₀ two_ne_zero,
    show ((52 - d.log2 : ℕ) : ℤ) + (d.log2 - 52) = 0 by omega, zpow_zero, mul_one]

/-- The powers of ten in the table are what they are said to be. -/
theorem value_power : ∀ n : Fin 23,
    value Float.exactlyRepresentablePowersOfTen[n].toModel.unpack = 10 ^ n.val := by
  decide +kernel

/-- **A decimal number is read as the double whose interval it is in.** -/
theorem ofScientific_eq {m : ℕ} {q : ℤ} (h : IsDouble m q) {d n : ℕ} (hd : 0 < d)
    (hn : 0 < n) (hn' : n ≤ 2048) (hv : Rounds m q (d / 10 ^ n)) :
    Float.ofScientific d true n = ofUnpacked (.finite .positive m q h.pos) := by
  have hpos : (0 : ℚ) < d := by exact_mod_cast hd
  rw [Float.ofScientific]
  split
  -- Small numbers are divided as doubles, since both are exact.
  next hfast =>
    obtain ⟨hlt, hle⟩ := hfast
    have hpower := value_power ⟨n, by omega⟩
    have hvalue := value_toFloat hd hlt
    obtain ⟨m₁, e₁, h₁, heq₁⟩ := exists_of_value_pos (hvalue ▸ hpos)
    obtain ⟨m₂, e₂, h₂, heq₂⟩ := exists_of_value_pos (hpower ▸ pow_pos (by norm_num) n)
    rw [heq₁, value] at hvalue
    rw [heq₂, value] at hpower
    have hdiv := div_eq h h₁ h₂ (by rwa [hvalue, hpower])
    rw [← heq₁, ← heq₂] at hdiv
    exact congrArg ofUnpacked hdiv
  -- All others are divided as whole numbers.
  next =>
    have hdiv := @div_eq _ _ h d (10 ^ n) 0 0 hd (Nat.pow_pos (by decide)) (by simpa using hv)
    have hhigh : ¬ (-(n : ℤ) > 2 ^ 11) := by omega
    have hlow : ¬ (-(n : ℤ) < -(2 ^ 11 + (d.log2 : ℤ))) := by omega
    have hneg : ¬ (0 ≤ -(n : ℤ)) := by omega
    rw [if_pos rfl, Int.negOfNat_eq]
    refine congrArg ofUnpacked ?_
    rw [UnpackedFloat.ofScientific, dif_neg hd.ne']
    simp only [Int.ofNat_eq_natCast, hhigh, hlow, hneg, if_false, neg_neg, Int.toNat_natCast]
    exact hdiv

end BslLint.Double
