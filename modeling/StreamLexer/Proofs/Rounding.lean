/-
**Rounding goes by the value.**

A fraction is rounded through its numerator and its denominator, and a decimal through its digits
and its exponent.  What comes out depends on the value alone: equal fractions round alike, so equal
decimals do, the shortcuts for decimals far out of range included.  And what needs no rounding is
not changed by it.

Main definitions:

* `StreamLexer.Decimal.value` — the rational number that a decimal stands for.

Main results:

* `StreamLexer.roundHalfEven_congr`, `StreamLexer.Binary64.magnitudeOfRatio_congr` — equal fractions
  round alike;
* `StreamLexer.Binary64.magnitudeOfRatio_unitsOf` — **an exact value rounds to itself**;
* `StreamLexer.Decimal.toBinary64_eq_ofRatio` — the shortcuts give what rounding would;
* `StreamLexer.Decimal.toBinary64_congr` — **equal decimals round alike**.
-/

import StreamLexer.Decimal.Basic
import Mathlib.Algebra.Order.Field.Rat
import Mathlib.Tactic.FieldSimp
import Mathlib.Tactic.Positivity
import Mathlib.Tactic.Ring

set_option relaxedAutoImplicit false
set_option autoImplicit false

namespace StreamLexer

/-! ### Division rounded half to even -/

theorem roundHalfEven_mul_right (a b : Nat) {k : Nat} (hk : 0 < k) :
    roundHalfEven (a * k) (b * k) = roundHalfEven a b := by
  have hlt : 2 * (a % b * k) < b * k ↔ 2 * (a % b) < b := by
    rw [← Nat.mul_assoc, Nat.mul_lt_mul_right hk]
  have hgt : b * k < 2 * (a % b * k) ↔ b < 2 * (a % b) := by
    rw [← Nat.mul_assoc, Nat.mul_lt_mul_right hk]
  unfold roundHalfEven
  rw [Nat.mul_div_mul_right _ _ hk, Nat.mul_mod_mul_right]
  simp only [hlt, hgt]

/-- **Equal fractions are rounded alike.** -/
theorem roundHalfEven_congr {a b c d : Nat} (hb : 0 < b) (hd : 0 < d) (h : a * d = c * b) :
    roundHalfEven a b = roundHalfEven c d := by
  calc roundHalfEven a b = roundHalfEven (a * d) (b * d) := (roundHalfEven_mul_right a b hd).symm
    _ = roundHalfEven (c * b) (d * b) := by rw [h, Nat.mul_comm b d]
    _ = roundHalfEven c d := roundHalfEven_mul_right c d hb

/-- A quotient without a remainder is not changed. -/
theorem roundHalfEven_mul_self (q : Nat) {b : Nat} (hb : 0 < b) : roundHalfEven (q * b) b = q := by
  unfold roundHalfEven
  rw [Nat.mul_div_cancel _ hb, Nat.mul_mod_left]
  exact if_pos hb

/-- What is less than a half is rounded down. -/
theorem roundHalfEven_of_lt {a b : Nat} (h : 2 * a < b) : roundHalfEven a b = 0 := by
  have hlt : a < b := by omega
  unfold roundHalfEven
  rw [Nat.div_eq_of_lt hlt, Nat.mod_eq_of_lt hlt]
  exact if_pos h

namespace Binary64

/-! ### Fractions -/

/-- The power of two that one is counted as, behind a name: written out it would be evaluated. -/
theorem exists_one_eq : ∃ n, 1074 = n ∧ one = 2 ^ n := by
  unfold one
  generalize 1074 = n
  exact ⟨n, rfl, rfl⟩

theorem one_pos : 0 < one := by
  obtain ⟨n, _, hn⟩ := exists_one_eq
  rw [hn]
  exact Nat.two_pow_pos n

/-- **Equal fractions round alike.** -/
theorem magnitudeOfRatio_congr {num den num' den' : Nat} (hden : 0 < den) (hden' : 0 < den')
    (h : num * den' = num' * den) : magnitudeOfRatio num den = magnitudeOfRatio num' den' := by
  have hcross : num * one * den' = num' * one * den := by
    rw [Nat.mul_right_comm, h, Nat.mul_right_comm]
  have hquotient : num * one / den = num' * one / den' := by
    calc num * one / den = num * one * den' / (den * den') := (Nat.mul_div_mul_right _ _ hden').symm
      _ = num' * one * den / (den' * den) := by rw [hcross, Nat.mul_comm den den']
      _ = num' * one / den' := Nat.mul_div_mul_right _ _ hden
  have hround : ∀ s, roundHalfEven (num * one) (den * Nat.pow 2 s) =
      roundHalfEven (num' * one) (den' * Nat.pow 2 s) := by
    intro s
    refine roundHalfEven_congr (Nat.mul_pos hden (Nat.two_pow_pos s))
      (Nat.mul_pos hden' (Nat.two_pow_pos s)) ?_
    rw [← Nat.mul_assoc, ← Nat.mul_assoc, hcross]
  unfold magnitudeOfRatio
  rw [hquotient]
  simp only [hround]

theorem ofRatio_congr {num den num' den' : Nat} (hden : 0 < den) (hden' : 0 < den')
    (h : num * den' = num' * den) : ofRatio num den = ofRatio num' den' := by
  simp only [ofRatio, magnitudeOfRatio_congr hden hden' h]

theorem magnitudeOfRatio_zero (den : Nat) : magnitudeOfRatio 0 den = 0 := by
  have hround : ∀ b, roundHalfEven 0 b = 0 := by
    intro b
    simp [roundHalfEven]
  simp [magnitudeOfRatio, excess, hround]

/-! ### Exact values -/

/-- The exponent field says how many bits of the exact value are too many. -/
theorem excess_unitsOf (m : Nat) : excess (unitsOf m) = m / exponentWeight - 1 := by
  have hfraction : m % exponentWeight < 2 ^ 52 := Nat.mod_lt m (by decide)
  by_cases he : m / exponentWeight = 0
  · have hunits : unitsOf m = m % exponentWeight := by simp only [unitsOf, he, if_true]
    have hlog : (m % exponentWeight).log2 ≤ 52 := by
      rcases Nat.eq_zero_or_pos (m % exponentWeight) with h0 | hpos
      · rw [h0]
        decide
      · exact Nat.le_of_lt ((Nat.log2_lt (Nat.ne_of_gt hpos)).2 hfraction)
    rw [excess, hunits, he]
    omega
  · have hunits : unitsOf m =
        (exponentWeight + m % exponentWeight) * 2 ^ (m / exponentWeight - 1) := by
      simp only [unitsOf, he, if_false]
      rfl
    have hlog : (unitsOf m).log2 = 52 + (m / exponentWeight - 1) := by
      have hpow : 0 < 2 ^ (m / exponentWeight - 1) := Nat.two_pow_pos _
      have hlower : 2 ^ 52 ≤ exponentWeight + m % exponentWeight := Nat.le_add_right _ _
      have hupper : exponentWeight + m % exponentWeight < 2 ^ 53 := by
        unfold exponentWeight at hfraction ⊢
        omega
      rw [hunits]
      refine (Nat.log2_eq_iff (Nat.ne_of_gt (Nat.mul_pos (by omega) hpow))).2 ⟨?_, ?_⟩
      · rw [Nat.pow_add]
        exact Nat.mul_le_mul_right _ hlower
      · rw [Nat.add_right_comm, Nat.pow_add]
        exact Nat.mul_lt_mul_of_pos_right hupper hpow
    rw [excess, hlog]
    omega

/-- **An exact value rounds to itself.** -/
theorem magnitudeOfRatio_unitsOf {m : Nat} (h : m ≤ infinityMagnitude) :
    magnitudeOfRatio (unitsOf m) one = m := by
  have hs : excess (unitsOf m * one / one) = m / exponentWeight - 1 := by
    rw [Nat.mul_div_cancel _ one_pos, excess_unitsOf]
  have hdivmod := Nat.div_add_mod m exponentWeight
  have hround : (m / exponentWeight - 1) * exponentWeight +
      roundHalfEven (unitsOf m * one) (one * Nat.pow 2 (m / exponentWeight - 1)) = m := by
    by_cases he : m / exponentWeight = 0
    · have hunits : unitsOf m = m := by
        simp only [unitsOf, he, if_true]
        rw [he, Nat.mul_zero, Nat.zero_add] at hdivmod
        exact hdivmod
      have hweight : ∀ b, b * Nat.pow 2 0 = b := fun b => Nat.mul_one b
      rw [hunits, he, Nat.zero_sub, Nat.zero_mul, Nat.zero_add, hweight,
        roundHalfEven_mul_self m one_pos]
    · have hunits : unitsOf m * one = (exponentWeight + m % exponentWeight) *
          (one * Nat.pow 2 (m / exponentWeight - 1)) := by
        simp only [unitsOf, he, if_false]
        rw [Nat.mul_assoc, Nat.mul_comm one]
      have hpos : 0 < one * Nat.pow 2 (m / exponentWeight - 1) :=
        Nat.mul_pos one_pos (Nat.two_pow_pos _)
      rw [hunits, roundHalfEven_mul_self _ hpos]
      obtain ⟨e, he'⟩ : ∃ e, m / exponentWeight = e + 1 := Nat.exists_eq_succ_of_ne_zero he
      rw [he'] at hdivmod ⊢
      rw [Nat.add_sub_cancel]
      calc e * exponentWeight + (exponentWeight + m % exponentWeight)
          = exponentWeight * (e + 1) + m % exponentWeight := by ring
        _ = m := hdivmod
  unfold magnitudeOfRatio
  simp only [hs, hround]
  exact Nat.min_eq_left h

end Binary64

/-! ### Decimals -/

namespace Decimal

open Binary64

/-- **The rational number that a decimal stands for.** -/
def value (d : Decimal) : ℚ := d.digits * 10 ^ d.exponent

theorem den_pos (d : Decimal) : 0 < d.den := Nat.pow_pos (by decide)

theorem num_div_den (d : Decimal) : (d.num : ℚ) / d.den = d.value := by
  have hnum : (d.num : ℚ) = d.digits * 10 ^ d.exponent.toNat := by
    simp [num]
  have hden : (d.den : ℚ) = 10 ^ (-d.exponent).toNat := by
    simp [den]
  have hexponent : d.exponent = (d.exponent.toNat : ℤ) - ((-d.exponent).toNat : ℤ) := by omega
  rw [hnum, hden, value, mul_div_assoc]
  congr 1
  rw [← zpow_natCast, ← zpow_natCast, ← zpow_sub₀ (by norm_num)]
  congr 1
  exact hexponent.symm

/-- Equal values are equal fractions. -/
theorem cross_eq {d d' : Decimal} (h : d.value = d'.value) : d.num * d'.den = d'.num * d.den := by
  rw [← num_div_den, ← num_div_den, div_eq_div_iff] at h
  · exact_mod_cast h
  · exact_mod_cast Nat.ne_of_gt d.den_pos
  · exact_mod_cast Nat.ne_of_gt d'.den_pos

theorem two_pow_le_ten_pow (n : Nat) : 2 ^ (3 * n) ≤ 10 ^ n := by
  rw [Nat.pow_mul]
  exact Nat.pow_le_pow_left (by decide) n

/-- Beyond every finite value rounding gives infinity. -/
theorem ofRatio_of_isHuge {d : Decimal} (h0 : d.digits ≠ 0) (h : d.isHuge = true) :
    ofRatio d.num d.den = .infinity := by
  obtain ⟨k, hk⟩ : ∃ k : Nat, d.exponent = k := ⟨d.exponent.toNat, by simp [isHuge] at h; omega⟩
  have hlarge : 400 < k := by
    simp [isHuge, hk] at h
    exact h
  have hden : d.den = 1 := by
    simp [den, hk]
  have hnum : 2 ^ (3 * k) ≤ d.num := by
    have hnum' : d.num = d.digits * 10 ^ k := by simp [num, hk]
    rw [hnum']
    exact Nat.le_trans (two_pow_le_ten_pow k) (Nat.le_mul_of_pos_left _ (Nat.pos_of_ne_zero h0))
  obtain ⟨n, hn, hone⟩ := exists_one_eq
  have hunits : 2 ^ (3 * k + n) ≤ d.num * one / d.den := by
    rw [hden, Nat.div_one, hone, Nat.pow_add]
    exact Nat.mul_le_mul_right _ hnum
  have hlog : 3 * k + n ≤ (d.num * one / d.den).log2 :=
    (Nat.le_log2 (Nat.ne_of_gt (Nat.lt_of_lt_of_le (Nat.two_pow_pos _) hunits))).2 hunits
  have hexcess : 2047 ≤ excess (d.num * one / d.den) := by
    unfold excess
    omega
  have hmagnitude : magnitudeOfRatio d.num d.den = infinityMagnitude :=
    Nat.min_eq_right (Nat.le_trans (Nat.mul_le_mul_right _ hexcess) (Nat.le_add_right _ _))
  simp only [ofRatio, hmagnitude]
  rfl

/-- Nearer to zero than to the least positive value rounding gives zero. -/
theorem ofRatio_of_isTiny {d : Decimal} (h0 : d.digits ≠ 0) (h : d.isTiny = true) :
    ofRatio d.num d.den = .zero := by
  obtain ⟨k, hk⟩ : ∃ k : Nat, d.exponent = -k := ⟨(-d.exponent).toNat, by simp [isTiny] at h; omega⟩
  have hsmall : d.digits.log2 + 401 < k := by
    simp [isTiny, hk] at h
    omega
  have hnum : d.num < 2 ^ (d.digits.log2 + 1) := by
    have hnum' : d.num = d.digits := by simp [num, hk]
    rw [hnum']
    exact (Nat.log2_lt h0).1 (Nat.lt_succ_self _)
  have hden : 2 ^ (3 * k) ≤ d.den := by
    have hden' : d.den = 10 ^ k := by simp [den, hk]
    rw [hden']
    exact two_pow_le_ten_pow k
  obtain ⟨n, hn, hone⟩ := exists_one_eq
  have hhalf : 2 * (d.num * one) < d.den := by
    have hpow : 2 * (2 ^ (d.digits.log2 + 1) * 2 ^ n) = 2 ^ (d.digits.log2 + n + 2) := by
      ring
    have hle : 2 ^ (d.digits.log2 + n + 2) ≤ 2 ^ (3 * k) :=
      Nat.pow_le_pow_right (by decide) (by omega)
    have hlt : d.num * 2 ^ n < 2 ^ (d.digits.log2 + 1) * 2 ^ n :=
      Nat.mul_lt_mul_of_pos_right hnum (Nat.two_pow_pos n)
    rw [hone]
    omega
  have hmagnitude : magnitudeOfRatio d.num d.den = 0 := by
    have hquotient : d.num * one / d.den = 0 := Nat.div_eq_of_lt (by omega)
    have hexcess : excess 0 = 0 := by decide
    have hweight : ∀ b, b * Nat.pow 2 0 = b := fun b => Nat.mul_one b
    simp only [magnitudeOfRatio, hquotient, hexcess, hweight, roundHalfEven_of_lt hhalf]
    rfl
  simp only [ofRatio, hmagnitude]
  rfl

/-- **The shortcuts for decimals far out of range give what rounding would.** -/
theorem toBinary64_eq_ofRatio (d : Decimal) : d.toBinary64 = ofRatio d.num d.den := by
  unfold toBinary64
  split
  · next h0 =>
      have hnum : d.num = 0 := by rw [num, h0, Nat.zero_mul]
      simp only [ofRatio, hnum, magnitudeOfRatio_zero]
      rfl
  · next h0 =>
      split
      · next h => exact (ofRatio_of_isHuge h0 h).symm
      · split
        · next h => exact (ofRatio_of_isTiny h0 h).symm
        · rfl

/-- **Equal decimals round alike.** -/
theorem toBinary64_congr {d d' : Decimal} (h : d.value = d'.value) :
    d.toBinary64 = d'.toBinary64 := by
  rw [toBinary64_eq_ofRatio, toBinary64_eq_ofRatio]
  exact ofRatio_congr d.den_pos d'.den_pos (cross_eq h)

end Decimal

end StreamLexer
