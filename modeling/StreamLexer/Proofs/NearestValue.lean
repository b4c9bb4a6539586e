/-
**Rounding to the nearest double-precision value.**

The values of the finite magnitudes grow with the magnitude, and between each and the next there is
a point halfway.  Rounding goes by these points: a fraction is rounded to a magnitude or a smaller
one exactly when it lies below the point above that magnitude, or on it and the magnitude is even.
This one equivalence says it all: no other value is nearer, of two that are equally near the one
with the even significand is taken, and the largest and the least of these points are the bounds of
infinity and of zero.

Main definitions:

* `StreamLexer.Binary64.value` — **the rational number that a finite value stands for**, by the
  fields of its word;
* `StreamLexer.Binary64.halfway` — the point halfway between a magnitude and the next;
* `StreamLexer.Binary64.IsNearest` — **the nearest value, ties to the even significand**.

Main results:

* `StreamLexer.roundHalfEven_le_iff` — rounding to an integer, by the points halfway;
* `StreamLexer.Binary64.unitsOf_strictMono` — larger magnitudes stand for larger values;
* `StreamLexer.Binary64.unboundedMagnitude_le_iff`, `StreamLexer.Binary64.magnitudeOfRatio_le_iff` —
  **rounding to a magnitude, by the points halfway**;
* `StreamLexer.Binary64.IsNearest.unique`, `StreamLexer.Binary64.isNearest_ofRatio` — there is one
  nearest value, and rounding finds it.
-/

import StreamLexer.Proofs.ShortestDecimal
import Mathlib.Algebra.Order.Group.Abs
import Mathlib.Order.Monotone.Basic
import Mathlib.Tactic.Linarith

set_option relaxedAutoImplicit false
set_option autoImplicit false

namespace StreamLexer

/-- **An integer quotient is rounded by the points halfway**: it is at most `n` when the exact
quotient is below `n + 1 / 2`, or equal to it and `n` is even. -/
theorem roundHalfEven_le_iff {a b : Nat} (hb : 0 < b) (n : Nat) :
    roundHalfEven a b ≤ n ↔ 2 * a < (2 * n + 1) * b ∨ 2 * a = (2 * n + 1) * b ∧ n % 2 = 0 := by
  have ha : b * (a / b) + a % b = a := Nat.div_add_mod a b
  have hr : a % b < b := Nat.mod_lt a hb
  have hright : (2 * n + 1) * b = 2 * (b * n) + b := by ring
  have hless : a / b < n → b * (a / b) + b ≤ b * n := fun h => Nat.mul_le_mul_left b h
  have hmore : n < a / b → b * n + b ≤ b * (a / b) := fun h => Nat.mul_le_mul_left b h
  have hsame : a / b = n → b * (a / b) = b * n := fun h => by rw [h]
  unfold roundHalfEven
  dsimp only
  rw [hright]
  generalize a / b = q at *
  generalize a % b = r at *
  rcases Nat.lt_trichotomy q n with hq | hq | hq
  · have h := hless hq
    split
    · omega
    · split <;> omega
  · have h := hsame hq
    split
    · omega
    · split <;> omega
  · have h := hmore hq
    split
    · omega
    · split <;> omega

/-- Rounding does not fall below an integer that the quotient reaches. -/
theorem le_roundHalfEven {a b n : Nat} (hb : 0 < b) (h : n * b ≤ a) : n ≤ roundHalfEven a b := by
  have hq : n ≤ a / b := (Nat.le_div_iff_mul_le hb).2 h
  unfold roundHalfEven
  dsimp only
  split
  · exact hq
  · split <;> omega

/-- Rounding does not rise above an integer that the quotient does not exceed. -/
theorem roundHalfEven_le {a b n : Nat} (hb : 0 < b) (h : a ≤ n * b) : roundHalfEven a b ≤ n := by
  have hright : (2 * n + 1) * b = 2 * (n * b) + b := by ring
  rw [roundHalfEven_le_iff hb, hright]
  omega

/-! ### Distances -/

/-- Of `lo` and a number above it, the second is the nearer to what lies at or above their middle,
and nearer than all that is below `lo`. -/
theorem dist_le_of_le {q v lo w : ℚ} (hw : w ≤ lo) (hlo : lo ≤ v) (hq : lo + v ≤ 2 * q) :
    |q - v| ≤ |q - w| ∧ (|q - w| = |q - v| → w ≠ v → 2 * q = lo + v) := by
  have hwq : w ≤ q := by linarith
  rw [abs_of_nonneg (sub_nonneg.2 hwq)]
  constructor
  · exact abs_le.2 ⟨by linarith, by linarith⟩
  · intro h hne
    rcases le_total v q with hv | hv
    · rw [abs_of_nonneg (sub_nonneg.2 hv)] at h
      exact absurd (by linarith) hne
    · rw [abs_of_nonpos (sub_nonpos.2 hv)] at h
      linarith

/-- Of `hi` and a number below it, the second is the nearer to what lies at or below their middle,
and nearer than all that is above `hi`. -/
theorem dist_le_of_ge {q v hi w : ℚ} (hw : hi ≤ w) (hhi : v ≤ hi) (hq : 2 * q ≤ v + hi) :
    |q - v| ≤ |q - w| ∧ (|q - w| = |q - v| → w ≠ v → 2 * q = v + hi) := by
  obtain ⟨hdist, htie⟩ := dist_le_of_le (q := -q) (v := -v) (neg_le_neg hw) (neg_le_neg hhi)
    (by linarith)
  rw [neg_sub_neg, neg_sub_neg, abs_sub_comm v, abs_sub_comm w] at hdist htie
  refine ⟨hdist, fun h hne => ?_⟩
  have hsum := htie h fun heq => hne (neg_injective heq)
  linarith

namespace Binary64

/-! ### Magnitudes and their values -/

/-- The units of a magnitude in terms of its binade: `n` steps of `2 ^ s` units. -/
theorem unitsOf_binade {s n : Nat} (hn : n ≤ 2 * exponentWeight) (hs : s = 0 ∨ exponentWeight ≤ n) :
    unitsOf (s * exponentWeight + n) = n * 2 ^ s := by
  have hunits : ∀ e f, f < exponentWeight → unitsOf (e * exponentWeight + f) =
      if e = 0 then f else (exponentWeight + f) * 2 ^ (e - 1) := by
    intro e f hf
    have hdiv : (e * exponentWeight + f) / exponentWeight = e := by
      unfold exponentWeight at hf ⊢
      omega
    have hmod : (e * exponentWeight + f) % exponentWeight = f := by
      unfold exponentWeight at hf ⊢
      omega
    simp only [unitsOf, hdiv, hmod]
    rfl
  rcases Nat.lt_or_ge n exponentWeight with hsmall | hlarge
  · obtain rfl : s = 0 := hs.resolve_right (Nat.not_le.2 hsmall)
    rw [hunits 0 n hsmall, if_pos rfl, Nat.pow_zero, Nat.mul_one]
  · obtain ⟨f, rfl⟩ := Nat.exists_eq_add_of_le hlarge
    rcases Nat.lt_or_ge f exponentWeight with hf | hf
    · have hm : s * exponentWeight + (exponentWeight + f) = (s + 1) * exponentWeight + f := by ring
      rw [hm, hunits (s + 1) f hf, if_neg (Nat.succ_ne_zero s), Nat.add_sub_cancel]
    · -- the first magnitude of the next binade
      obtain rfl : f = exponentWeight := by omega
      have hm : s * exponentWeight + (exponentWeight + exponentWeight) =
          (s + 2) * exponentWeight + 0 := by ring
      have hpred : s + 2 - 1 = s + 1 := rfl
      rw [hm, hunits (s + 2) 0 (by decide), if_neg (by omega), hpred, Nat.pow_succ]
      ring

/-- Every magnitude lies in a binade, and not at its end. -/
theorem exists_binade (m : Nat) : ∃ s n, m = s * exponentWeight + n ∧ n < 2 * exponentWeight ∧
    (s = 0 ∨ exponentWeight ≤ n) := by
  have hdivmod := Nat.div_add_mod m exponentWeight
  have hmod : m % exponentWeight < exponentWeight := Nat.mod_lt m (by decide)
  rcases Nat.eq_zero_or_pos (m / exponentWeight) with h0 | hpos
  · rw [h0] at hdivmod
    exact ⟨0, m, by omega, by omega, Or.inl rfl⟩
  · obtain ⟨s, hs⟩ : ∃ s, m / exponentWeight = s + 1 := ⟨_, (Nat.succ_pred_eq_of_pos hpos).symm⟩
    rw [hs] at hdivmod
    refine ⟨s, exponentWeight + m % exponentWeight, ?_, by omega, Or.inr (by omega)⟩
    rw [← hdivmod]
    simp only [Nat.mul_add_mod_self_left, Nat.mod_mod]
    ring

theorem unitsOf_succ {s n : Nat} (hn : n < 2 * exponentWeight) (hs : s = 0 ∨ exponentWeight ≤ n) :
    unitsOf (s * exponentWeight + n + 1) = (n + 1) * 2 ^ s := by
  rw [Nat.add_assoc]
  exact unitsOf_binade hn (hs.imp_right Nat.le_succ_of_le)

/-- **Larger magnitudes stand for larger values.** -/
theorem unitsOf_strictMono : StrictMono unitsOf := by
  refine strictMono_nat_of_lt_succ fun m => ?_
  obtain ⟨s, n, rfl, hn, hs⟩ := exists_binade m
  rw [unitsOf_succ hn hs, unitsOf_binade (Nat.le_of_lt hn) hs]
  exact Nat.mul_lt_mul_of_pos_right (Nat.lt_succ_self n) (Nat.two_pow_pos s)

/-- Between a magnitude of a binade and the next lies half a step more than its own steps. -/
theorem unitsOf_add_succ {s n : Nat} (hn : n < 2 * exponentWeight)
    (hs : s = 0 ∨ exponentWeight ≤ n) :
    unitsOf (s * exponentWeight + n) + unitsOf (s * exponentWeight + n + 1) =
      (2 * n + 1) * 2 ^ s := by
  rw [unitsOf_succ hn hs, unitsOf_binade (Nat.le_of_lt hn) hs]
  ring

/-- Below a magnitude lies the point halfway between any two smaller ones. -/
theorem unitsOf_add_succ_lt {m k : Nat} (h : m < k) :
    unitsOf m + unitsOf (m + 1) < 2 * unitsOf k := by
  have hlt : unitsOf m < unitsOf k := unitsOf_strictMono h
  have hle : unitsOf (m + 1) ≤ unitsOf k := unitsOf_strictMono.monotone h
  omega

/-- Above a magnitude lies the point halfway between any two that are not smaller. -/
theorem lt_unitsOf_add_succ {m k : Nat} (h : k ≤ m) :
    2 * unitsOf k < unitsOf m + unitsOf (m + 1) := by
  have hle : unitsOf k ≤ unitsOf m := unitsOf_strictMono.monotone h
  have hlt : unitsOf m < unitsOf (m + 1) := unitsOf_strictMono (Nat.lt_succ_self m)
  omega

/-! ### Rounding by the points halfway -/

/-- The magnitude nearest to `a / b` units, were there no largest. -/
def unboundedMagnitude (a b : Nat) : Nat :=
  excess (a / b) * exponentWeight + roundHalfEven a (b * 2 ^ excess (a / b))

theorem magnitudeOfRatio_eq (num den : Nat) :
    magnitudeOfRatio num den = min (unboundedMagnitude (num * one) den) infinityMagnitude := rfl

/-- The excess says which binade a number of units belongs to. -/
theorem excess_bounds {a b : Nat} (hb : 0 < b) :
    (excess (a / b) = 0 ∨ exponentWeight * 2 ^ excess (a / b) * b ≤ a) ∧
      a < 2 * exponentWeight * 2 ^ excess (a / b) * b := by
  have hweight : exponentWeight = 2 ^ 52 := rfl
  constructor
  · rcases Nat.eq_zero_or_pos (excess (a / b)) with h0 | hpos
    · exact Or.inl h0
    · right
      have hlog : 52 + excess (a / b) ≤ (a / b).log2 := by
        unfold excess at hpos ⊢
        omega
      have hne : a / b ≠ 0 := by
        intro h
        rw [h] at hpos
        exact absurd hpos (by decide)
      have hle : 2 ^ (52 + excess (a / b)) ≤ a / b := (Nat.le_log2 hne).1 hlog
      rw [hweight, ← Nat.pow_add]
      exact Nat.le_trans (Nat.mul_le_mul_right b hle) (Nat.div_mul_le_self a b)
  · have hlog : (a / b).log2 < 53 + excess (a / b) := by
      unfold excess
      omega
    have hlt : a / b < 2 ^ (53 + excess (a / b)) :=
      Nat.lt_of_lt_of_le Nat.lt_log2_self (Nat.pow_le_pow_right (by decide) hlog)
    have hdouble : 2 * exponentWeight = 2 ^ 53 := rfl
    rw [hdouble, ← Nat.pow_add]
    exact (Nat.div_lt_iff_lt_mul hb).1 hlt

section

variable {a b s m n : Nat}

/-- In the binade of the number, magnitudes are counted in its steps. -/
theorem roundHalfEven_step_le_iff (hb : 0 < b) (hn : n < 2 * exponentWeight)
    (hs : s = 0 ∨ exponentWeight ≤ n) :
    roundHalfEven a (b * 2 ^ s) ≤ n ↔
      2 * a < (unitsOf (s * exponentWeight + n) + unitsOf (s * exponentWeight + n + 1)) * b ∨
        2 * a = (unitsOf (s * exponentWeight + n) + unitsOf (s * exponentWeight + n + 1)) * b ∧
          (s * exponentWeight + n) % 2 = 0 := by
  have heven : (s * exponentWeight + n) % 2 = n % 2 := by
    unfold exponentWeight
    omega
  have hsteps : (2 * n + 1) * 2 ^ s * b = (2 * n + 1) * (b * 2 ^ s) := by ring
  rw [unitsOf_add_succ hn hs, hsteps, heven]
  exact roundHalfEven_le_iff (Nat.mul_pos hb (Nat.two_pow_pos s)) n

/-- The points halfway before the binade of the number lie below it. -/
theorem unitsOf_add_succ_mul_lt (hb : 0 < b) (ha : exponentWeight * 2 ^ s * b ≤ a)
    (hm : m < s * exponentWeight + exponentWeight) :
    (unitsOf m + unitsOf (m + 1)) * b < 2 * a := by
  have hfirst : unitsOf (s * exponentWeight + exponentWeight) = exponentWeight * 2 ^ s :=
    unitsOf_binade (by decide) (Or.inr (Nat.le_refl _))
  have hlt := unitsOf_add_succ_lt hm
  rw [hfirst] at hlt
  calc (unitsOf m + unitsOf (m + 1)) * b < 2 * (exponentWeight * 2 ^ s) * b :=
        Nat.mul_lt_mul_of_pos_right hlt hb
    _ = 2 * (exponentWeight * 2 ^ s * b) := Nat.mul_assoc _ _ _
    _ ≤ 2 * a := Nat.mul_le_mul_left 2 ha

/-- The points halfway after the binade of the number lie above it. -/
theorem lt_unitsOf_add_succ_mul (ha : a < 2 * exponentWeight * 2 ^ s * b)
    (hm : s * exponentWeight + 2 * exponentWeight ≤ m) :
    2 * a < (unitsOf m + unitsOf (m + 1)) * b := by
  have hlast : unitsOf (s * exponentWeight + 2 * exponentWeight) = 2 * exponentWeight * 2 ^ s :=
    unitsOf_binade (Nat.le_refl _) (Or.inr (by decide))
  have hlt := lt_unitsOf_add_succ hm
  rw [hlast] at hlt
  calc 2 * a < 2 * (2 * exponentWeight * 2 ^ s * b) := Nat.mul_lt_mul_of_pos_left ha (by decide)
    _ = 2 * (2 * exponentWeight * 2 ^ s) * b := (Nat.mul_assoc _ _ _).symm
    _ ≤ (unitsOf m + unitsOf (m + 1)) * b := Nat.mul_le_mul_right b (Nat.le_of_lt hlt)

end

/-- **A number of units is rounded by the points halfway.** -/
theorem unboundedMagnitude_le_iff {a b : Nat} (hb : 0 < b) (m : Nat) :
    unboundedMagnitude a b ≤ m ↔ 2 * a < (unitsOf m + unitsOf (m + 1)) * b ∨
      2 * a = (unitsOf m + unitsOf (m + 1)) * b ∧ m % 2 = 0 := by
  obtain ⟨hlower, hupper⟩ := excess_bounds (a := a) hb
  unfold unboundedMagnitude
  generalize excess (a / b) = s at *
  have hstep : 0 < b * 2 ^ s := Nat.mul_pos hb (Nat.two_pow_pos s)
  have hsteps : ∀ n, n * 2 ^ s * b = n * (b * 2 ^ s) := fun n => by ring
  rcases Nat.lt_or_ge m (s * exponentWeight + 2 * exponentWeight) with hm | hm
  · by_cases hbinade : s = 0 ∨ s * exponentWeight + exponentWeight ≤ m
    · -- the binade of the number
      have hle : s * exponentWeight ≤ m := by
        rcases hbinade with h0 | hle
        · rw [h0, Nat.zero_mul]
          exact Nat.zero_le m
        · exact Nat.le_of_add_right_le hle
      obtain ⟨n, rfl⟩ : ∃ n, m = s * exponentWeight + n := Nat.exists_eq_add_of_le hle
      rw [← roundHalfEven_step_le_iff hb (Nat.lt_of_add_lt_add_left hm) (by omega)]
      exact Nat.add_le_add_iff_left
    · -- an earlier one
      obtain ⟨hs, hm⟩ := not_or.1 hbinade
      have ha := hlower.resolve_left hs
      have hfrom : exponentWeight ≤ roundHalfEven a (b * 2 ^ s) :=
        le_roundHalfEven hstep (hsteps _ ▸ ha)
      have hlt := unitsOf_add_succ_mul_lt hb ha (Nat.lt_of_not_le hm)
      refine iff_of_false ?_ ?_
      · omega
      · rintro (h | ⟨h, _⟩) <;> omega
  · -- a later one
    have hto : roundHalfEven a (b * 2 ^ s) ≤ 2 * exponentWeight :=
      roundHalfEven_le hstep (Nat.le_of_lt (hsteps _ ▸ hupper))
    exact iff_of_true (Nat.le_trans (Nat.add_le_add_left hto _) hm)
      (Or.inl (lt_unitsOf_add_succ_mul hupper hm))

/-! ### Values as rational numbers -/

/-- **The rational number that a finite value stands for**, by the fields of its word: without an
exponent field the significand is the fraction field and its unit is `2 ^ -1074`; else it has a
leading one, and each step of the exponent field doubles the unit. -/
def value (x : Binary64) : ℚ :=
  let exponent : Nat := x.magnitude / 2 ^ 52
  let fraction : Nat := x.magnitude % 2 ^ 52
  let size : ℚ := if exponent = 0 then fraction * 2 ^ (-1074 : ℤ)
    else (2 ^ 52 + fraction) * 2 ^ ((exponent : ℤ) - 1075)
  if x.negative then -size else size

/-- The rational number of a magnitude, counted in units. -/
def magnitudeValue (m : Nat) : ℚ := unitsOf m / one

theorem cast_one_eq : (one : ℚ) = 2 ^ (1074 : ℤ) := by
  obtain ⟨n, hn, hone⟩ := exists_one_eq
  have hexponent : (1074 : ℤ) = (n : ℤ) := by omega
  rw [hone, hexponent, zpow_natCast]
  norm_num

theorem cast_one_pos : (0 : ℚ) < one := by
  exact_mod_cast one_pos

/-- The fields of the word and the count of units tell the same number. -/
theorem value_eq (x : Binary64) :
    x.value = if x.negative then -magnitudeValue x.magnitude else magnitudeValue x.magnitude := by
  have hsize : magnitudeValue x.magnitude =
      if x.magnitude / 2 ^ 52 = 0 then ((x.magnitude % 2 ^ 52 : Nat) : ℚ) * 2 ^ (-1074 : ℤ)
      else (2 ^ 52 + ((x.magnitude % 2 ^ 52 : Nat) : ℚ)) *
        2 ^ (((x.magnitude / 2 ^ 52 : Nat) : ℤ) - 1075) := by
    have hweight : ((exponentWeight : Nat) : ℚ) = 2 ^ 52 := by
      norm_num [exponentWeight]
    have hfields : exponentWeight = 2 ^ 52 := rfl
    unfold magnitudeValue unitsOf
    dsimp only
    rw [cast_one_eq, ← hfields]
    generalize x.magnitude % exponentWeight = f
    generalize x.magnitude / exponentWeight = e
    split
    · rw [zpow_neg, div_eq_mul_inv]
    · next he =>
        have hexponent : ((e - 1 : Nat) : ℤ) - 1074 = (e : ℤ) - 1075 := by omega
        have hpow : ((Nat.pow 2 (e - 1) : Nat) : ℚ) = 2 ^ ((e - 1 : Nat) : ℤ) := by
          rw [zpow_natCast]
          exact Nat.cast_pow 2 (e - 1)
        rw [Nat.cast_mul, Nat.cast_add, hweight, hpow, mul_div_assoc,
          ← zpow_sub₀ (by norm_num), hexponent]
  unfold value
  dsimp only
  rw [hsize]

theorem magnitudeValue_strictMono : StrictMono magnitudeValue := by
  intro m n h
  have hunits : (unitsOf m : ℚ) < unitsOf n := by
    exact_mod_cast unitsOf_strictMono h
  exact div_lt_div_of_pos_right hunits cast_one_pos

@[simp] theorem magnitudeValue_zero : magnitudeValue 0 = 0 := by
  have hunits : unitsOf 0 = 0 := by decide
  rw [magnitudeValue, hunits, Nat.cast_zero, zero_div]

theorem magnitudeValue_nonneg (m : Nat) : 0 ≤ magnitudeValue m := by
  rw [← magnitudeValue_zero]
  exact magnitudeValue_strictMono.monotone (Nat.zero_le m)

/-- **The point halfway between a magnitude and the next.** -/
def halfway (m : Nat) : ℚ := (magnitudeValue m + magnitudeValue (m + 1)) / 2

theorem halfway_eq (m : Nat) :
    halfway m = ((unitsOf m + unitsOf (m + 1) : Nat) : ℚ) / (2 * one) := by
  unfold halfway magnitudeValue
  rw [← add_div, div_div, mul_comm (one : ℚ), Nat.cast_add]

/-- A point halfway is half a step beyond a magnitude of its binade. -/
theorem halfway_binade {s n : Nat} (hn : n < 2 * exponentWeight)
    (hs : s = 0 ∨ exponentWeight ≤ n) :
    halfway (s * exponentWeight + n) = (2 * n + 1) * 2 ^ ((s : ℤ) - 1075) := by
  have hunit : (2 : ℚ) * one = 2 ^ (1075 : ℤ) := by
    have hexponent : (1075 : ℤ) = 1 + 1074 := rfl
    rw [cast_one_eq, hexponent, zpow_add₀ (by norm_num), zpow_one]
  rw [halfway_eq, unitsOf_add_succ hn hs, hunit, zpow_sub₀ (by norm_num), zpow_natCast,
    Nat.cast_mul, Nat.cast_pow, Nat.cast_succ, Nat.cast_mul, Nat.cast_ofNat, mul_div_assoc]

/-- Half the least positive value, up to which numbers are rounded to zero. -/
theorem halfway_zero : halfway 0 = 2 ^ (-1075 : ℤ) := by
  have h := halfway_binade (s := 0) (n := 0) (by decide) (Or.inl rfl)
  rw [Nat.zero_mul] at h
  rw [h, Nat.cast_zero, Nat.cast_zero, mul_zero, zero_add, one_mul, zero_sub]

/-- Halfway between the largest finite value and `2 ^ 1024`, from where on numbers are rounded to
infinity. -/
theorem halfway_largest : halfway (infinityMagnitude - 1) = 2 ^ (1024 : ℤ) - 2 ^ (970 : ℤ) := by
  obtain ⟨s, hs⟩ : ∃ s, s = 2045 := ⟨2045, rfl⟩
  have hmagnitude : infinityMagnitude - 1 = s * exponentWeight + (2 * exponentWeight - 1) := by
    rw [hs]
    decide
  have hsignificand : (2 : ℚ) * ((2 * exponentWeight - 1 : Nat) : ℚ) + 1 = 2 ^ (54 : ℤ) - 1 := by
    norm_num [exponentWeight]
  have hexponent : (s : ℤ) - 1075 = 970 := by omega
  have htop : (1024 : ℤ) = 54 + 970 := rfl
  rw [hmagnitude, halfway_binade (by decide) (Or.inr (by decide)), hsignificand, hexponent, htop,
    zpow_add₀ (by norm_num), sub_mul, one_mul]

/-- **A fraction is rounded by the points halfway**, up to the largest finite value. -/
theorem magnitudeOfRatio_le_iff (num : Nat) {den m : Nat} (hden : 0 < den)
    (hm : m < infinityMagnitude) :
    magnitudeOfRatio num den ≤ m ↔
      (num : ℚ) / den < halfway m ∨ (num : ℚ) / den = halfway m ∧ m % 2 = 0 := by
  have hdenpos : (0 : ℚ) < den := by
    exact_mod_cast hden
  have htwice : (0 : ℚ) < 2 * one := mul_pos (by norm_num) cast_one_pos
  have hleft : (num : ℚ) * (2 * one) = ((2 * (num * one) : Nat) : ℚ) := by
    push_cast
    ring
  have hlt : (num : ℚ) / den < halfway m ↔
      2 * (num * one) < (unitsOf m + unitsOf (m + 1)) * den := by
    rw [halfway_eq, div_lt_div_iff₀ hdenpos htwice, hleft, ← Nat.cast_mul, Nat.cast_lt]
  have heq : (num : ℚ) / den = halfway m ↔
      2 * (num * one) = (unitsOf m + unitsOf (m + 1)) * den := by
    rw [halfway_eq, div_eq_div_iff hdenpos.ne' htwice.ne', hleft, ← Nat.cast_mul, Nat.cast_inj]
  rw [hlt, heq, ← unboundedMagnitude_le_iff hden, magnitudeOfRatio_eq]
  omega

/-! ### The ends of the range -/

/-- **Infinity is the result from halfway between the largest finite value and `2 ^ 1024` on.** -/
theorem magnitudeOfRatio_eq_infinityMagnitude_iff {num den : Nat} (hden : 0 < den) :
    magnitudeOfRatio num den = infinityMagnitude ↔
      (2 : ℚ) ^ (1024 : ℤ) - 2 ^ (970 : ℤ) ≤ (num : ℚ) / den := by
  have hle : magnitudeOfRatio num den ≤ infinityMagnitude := Nat.min_le_right _ _
  have hpos : 0 < infinityMagnitude := by decide
  have hodd : ¬ (infinityMagnitude - 1) % 2 = 0 := by decide
  have hiff := magnitudeOfRatio_le_iff num hden (Nat.sub_one_lt_of_lt hpos)
  rw [or_iff_left fun h => hodd h.2, halfway_largest] at hiff
  rw [← not_lt, ← hiff]
  omega

/-- **Zero is the result up to half the least positive value.** -/
theorem magnitudeOfRatio_eq_zero_iff {num den : Nat} (hden : 0 < den) :
    magnitudeOfRatio num den = 0 ↔ (num : ℚ) / den ≤ 2 ^ (-1075 : ℤ) := by
  have hiff := magnitudeOfRatio_le_iff num hden (show 0 < infinityMagnitude by decide)
  rw [and_iff_left (Nat.zero_mod 2), ← le_iff_lt_or_eq, halfway_zero] at hiff
  rw [← hiff, Nat.le_zero]

/-! ### The nearest magnitude -/

/-- **Where the numbers lie that are rounded to a magnitude**: between the points halfway to the
magnitudes beside it, and at one of these points only if the magnitude is even. -/
structure RoundsTo (q : ℚ) (m : Nat) : Prop where
  le_halfway : q ≤ halfway m
  even_of_eq : q = halfway m → m % 2 = 0
  halfway_le : ∀ j, m = j + 1 → halfway j ≤ q
  even_of_eq_pred : ∀ j, m = j + 1 → q = halfway j → m % 2 = 0

theorem roundsTo_magnitudeOfRatio {num den m : Nat} (hden : 0 < den) (hm : m < infinityMagnitude)
    (h : magnitudeOfRatio num den = m) : RoundsTo ((num : ℚ) / den) m := by
  have habove := (magnitudeOfRatio_le_iff num hden hm).1 (Nat.le_of_eq h)
  have hbelow : ∀ j, m = j + 1 → ¬ ((num : ℚ) / den < halfway j) ∧
      ¬ ((num : ℚ) / den = halfway j ∧ j % 2 = 0) := by
    intro j hj
    rw [← not_or, ← magnitudeOfRatio_le_iff num hden (by omega), h, hj]
    exact Nat.not_succ_le_self j
  refine ⟨?_, ?_, ?_, ?_⟩
  · rcases habove with h | ⟨h, _⟩
    · exact h.le
    · exact h.le
  · intro heq
    exact (habove.resolve_left (heq ▸ lt_irrefl _)).2
  · intro j hj
    exact not_lt.1 (hbelow j hj).1
  · intro j hj heq
    have hodd : ¬ j % 2 = 0 := fun heven => (hbelow j hj).2 ⟨heq, heven⟩
    omega

/-- Where a value lies, seen from a magnitude: there, at the next or above it, below zero, or at the
one before or below it. -/
theorem value_cases (y : Binary64) (m : Nat) :
    y.value = magnitudeValue m ∨ magnitudeValue (m + 1) ≤ y.value ∨ (m = 0 ∧ y.value < 0) ∨
      ∃ j, m = j + 1 ∧ y.value ≤ magnitudeValue j := by
  have hmono := magnitudeValue_strictMono.monotone
  rw [value_eq]
  cases y.negative with
  | false =>
      rcases Nat.lt_trichotomy y.magnitude m with h | h | h
      · obtain ⟨j, rfl⟩ : ∃ j, m = j + 1 := Nat.exists_eq_succ_of_ne_zero (Nat.ne_zero_of_lt h)
        exact Or.inr (Or.inr (Or.inr ⟨j, rfl, hmono (Nat.le_of_lt_succ h)⟩))
      · exact Or.inl (congrArg magnitudeValue h)
      · exact Or.inr (Or.inl (hmono h))
  | true =>
      have hnonpos : -magnitudeValue y.magnitude ≤ 0 := neg_nonpos.2 (magnitudeValue_nonneg _)
      rw [if_pos rfl]
      cases m with
      | succ j => exact Or.inr (Or.inr (Or.inr ⟨j, rfl, hnonpos.trans (magnitudeValue_nonneg j)⟩))
      | zero =>
          rcases hnonpos.lt_or_eq with h | h
          · exact Or.inr (Or.inr (Or.inl ⟨rfl, h⟩))
          · exact Or.inl (h.trans magnitudeValue_zero.symm)

/-- **No value is nearer to a number than the magnitude that it is rounded to**, and if another is
as near then the magnitude is even. -/
theorem RoundsTo.dist_le {q : ℚ} {m : Nat} (h : RoundsTo q m) (h0 : 0 ≤ q) (y : Binary64) :
    |q - magnitudeValue m| ≤ |q - y.value| ∧
      (y.value ≠ magnitudeValue m → |q - y.value| = |q - magnitudeValue m| → m % 2 = 0) := by
  obtain ⟨habove, hevenAbove, hbelow, hevenBelow⟩ := h
  have hmono := magnitudeValue_strictMono.monotone
  unfold halfway at habove hevenAbove hbelow hevenBelow
  rcases value_cases y m with hy | hy | ⟨rfl, hy⟩ | ⟨j, rfl, hy⟩
  · exact ⟨by rw [hy], fun hne => absurd hy hne⟩
  · obtain ⟨hdist, htie⟩ := dist_le_of_ge (q := q) hy (hmono (Nat.le_succ m)) (by linarith)
    refine ⟨hdist, fun hne heq => hevenAbove ?_⟩
    have hmiddle := htie heq hne
    linarith
  · -- what is not negative is nearer to zero than to a value below zero
    rw [magnitudeValue_zero]
    obtain ⟨hdist, _⟩ := dist_le_of_le (q := q) (le_refl y.value) (le_of_lt hy) (by linarith)
    exact ⟨hdist, fun _ _ => rfl⟩
  · have hlower := hbelow j rfl
    obtain ⟨hdist, htie⟩ := dist_le_of_le (q := q) hy (hmono (Nat.le_succ j)) (by linarith)
    refine ⟨hdist, fun hne heq => hevenBelow j rfl ?_⟩
    have hmiddle := htie heq hne
    linarith

/-! ### The nearest value -/

/-- **The double-precision value nearest to a number** that is not negative: no finite value is
nearer, of two that are equally near it is the one with the even significand, and the bounds of
infinity and of zero lie halfway beyond the largest finite value and halfway below the least
positive one. -/
structure IsNearest (q : ℚ) (x : Binary64) : Prop where
  negative_eq : x.negative = false
  isNaN_eq : x.isNaN = false
  eq_infinity_iff : x = infinity ↔ 2 ^ (1024 : ℤ) - 2 ^ (970 : ℤ) ≤ q
  eq_zero_iff : x = zero ↔ q ≤ 2 ^ (-1075 : ℤ)
  nearest : x.isFinite = true → ∀ y : Binary64, y.isFinite = true → |q - x.value| ≤ |q - y.value|
  even : x.isFinite = true → ∀ y : Binary64, y.isFinite = true → y.value ≠ x.value →
    |q - y.value| = |q - x.value| → x.magnitude % 2 = 0

theorem value_of_nonneg {x : Binary64} (h : x.negative = false) :
    x.value = magnitudeValue x.magnitude := by
  rw [value_eq, h]
  rfl

theorem exists_value_eq {m : Nat} (h : m < infinityMagnitude) :
    ∃ x : Binary64, x.isFinite = true ∧ x.value = magnitudeValue m :=
  ⟨ofMagnitude m (Nat.le_of_lt h), decide_eq_true h, value_of_nonneg rfl⟩

theorem ofMagnitude_inj {m n : Nat} (hm : m ≤ infinityMagnitude) (hn : n ≤ infinityMagnitude) :
    ofMagnitude m hm = ofMagnitude n hn ↔ m = n := by
  simp [ofMagnitude]

/-- **Rounding a fraction finds the value nearest to it.** -/
theorem isNearest_ofRatio (num : Nat) {den : Nat} (hden : 0 < den) :
    IsNearest ((num : ℚ) / den) (ofRatio num den) := by
  have h0 : (0 : ℚ) ≤ (num : ℚ) / den := div_nonneg (Nat.cast_nonneg _) (Nat.cast_nonneg _)
  have hle : magnitudeOfRatio num den ≤ infinityMagnitude := Nat.min_le_right _ _
  have hrounds : (ofRatio num den).isFinite = true →
      RoundsTo ((num : ℚ) / den) (ofRatio num den).magnitude := fun hfinite =>
    roundsTo_magnitudeOfRatio hden (of_decide_eq_true hfinite) rfl
  have hvalue : (ofRatio num den).value = magnitudeValue (ofRatio num den).magnitude :=
    value_of_nonneg rfl
  refine ⟨rfl, decide_eq_false (Nat.not_lt.2 hle), ?_, ?_, ?_, ?_⟩
  · rw [← magnitudeOfRatio_eq_infinityMagnitude_iff hden]
    exact ofMagnitude_inj hle (Nat.le_refl _)
  · rw [← magnitudeOfRatio_eq_zero_iff hden]
    exact ofMagnitude_inj hle (Nat.zero_le _)
  · intro hfinite y _
    rw [hvalue]
    exact ((hrounds hfinite).dist_le h0 y).1
  · intro hfinite y _
    rw [hvalue]
    exact ((hrounds hfinite).dist_le h0 y).2

theorem IsNearest.magnitude_le_infinity {q : ℚ} {x : Binary64} (h : IsNearest q x) :
    x.magnitude ≤ infinityMagnitude := Nat.le_of_not_lt (of_decide_eq_false h.isNaN_eq)

theorem IsNearest.isFinite_or_eq {q : ℚ} {x : Binary64} (h : IsNearest q x) :
    x.isFinite = true ∨ x = infinity := by
  rcases Nat.lt_or_eq_of_le h.magnitude_le_infinity with hlt | heq
  · exact Or.inl (decide_eq_true hlt)
  · right
    rw [eq_ofMagnitude h.negative_eq h.magnitude_le_infinity]
    exact (ofMagnitude_inj _ (Nat.le_refl _)).2 heq

/-- Between two even magnitudes lies an odd one, whose value is nearer to their middle. -/
theorem IsNearest.magnitude_le {q : ℚ} {x y : Binary64} (hx : IsNearest q x) (hy : IsNearest q y)
    (hfinite : x.isFinite = true) (hfinite' : y.isFinite = true) : y.magnitude ≤ x.magnitude := by
  by_contra hlt
  have hlt : x.magnitude < y.magnitude := Nat.lt_of_not_le hlt
  have hvalues : x.value < y.value := by
    rw [value_of_nonneg hx.negative_eq, value_of_nonneg hy.negative_eq]
    exact magnitudeValue_strictMono hlt
  have hdist : |q - x.value| = |q - y.value| :=
    le_antisymm (hx.nearest hfinite y hfinite') (hy.nearest hfinite' x hfinite)
  have heven := hx.even hfinite y hfinite' hvalues.ne' hdist.symm
  have heven' := hy.even hfinite' x hfinite hvalues.ne hdist
  have hm : y.magnitude < infinityMagnitude := of_decide_eq_true hfinite'
  have hnext : x.magnitude + 1 < y.magnitude := by omega
  obtain ⟨z, hfiniteZ, hz⟩ := exists_value_eq (Nat.lt_trans hnext hm)
  have hlower : x.value < z.value := by
    rw [hz, value_of_nonneg hx.negative_eq]
    exact magnitudeValue_strictMono (Nat.lt_succ_self _)
  have hupper : z.value < y.value := by
    rw [hz, value_of_nonneg hy.negative_eq]
    exact magnitudeValue_strictMono hnext
  have hmiddle : 2 * q = x.value + y.value := by
    rcases abs_eq_abs.1 hdist with h | h <;> linarith
  have hnearer : |q - z.value| < q - x.value := abs_lt.2 ⟨by linarith, by linarith⟩
  have hnearest := hx.nearest hfinite z hfiniteZ
  exact absurd (le_abs_self (q - x.value)) (not_le.2 (hnearest.trans_lt hnearer))

/-- **There is only one nearest value.** -/
theorem IsNearest.unique {q : ℚ} {x y : Binary64} (hx : IsNearest q x) (hy : IsNearest q y) :
    x = y := by
  have hinfinity : x = infinity ↔ y = infinity := hx.eq_infinity_iff.trans hy.eq_infinity_iff.symm
  rcases hx.isFinite_or_eq with hfinite | hx'
  · rcases hy.isFinite_or_eq with hfinite' | hy'
    · have hmagnitude : x.magnitude = y.magnitude :=
        Nat.le_antisymm (hy.magnitude_le hx hfinite' hfinite) (hx.magnitude_le hy hfinite hfinite')
      rw [eq_ofMagnitude hx.negative_eq hx.magnitude_le_infinity,
        eq_ofMagnitude hy.negative_eq hy.magnitude_le_infinity]
      exact (ofMagnitude_inj _ _).2 hmagnitude
    · exact (hinfinity.2 hy').trans hy'.symm
  · exact hx'.trans (hinfinity.1 hx').symm

end Binary64

/-- **A decimal is converted to the value nearest to it.** -/
theorem Decimal.isNearest_toBinary64 (d : Decimal) : Binary64.IsNearest d.value d.toBinary64 := by
  rw [toBinary64_eq_ofRatio, ← num_div_den]
  exact Binary64.isNearest_ofRatio d.num d.den_pos

end StreamLexer
