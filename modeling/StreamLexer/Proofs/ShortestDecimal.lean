/-
**What is chosen reads back.**

The decimal that a value is written as is one that was tried and found to be read as the value, or
the exact value when no grid had such a decimal; without trailing zeros it is the same number.
However many digits were tried, and whatever the rule for ties, what is chosen is therefore read as
the value it was chosen for.

Main results:

* `StreamLexer.Decimal.value_strip` — trailing zeros make no difference;
* `StreamLexer.Binary64.toBinary64_exactDecimal` — the exact value is read as itself;
* `StreamLexer.Binary64.readsBack_of_onGrid?` — the decimal of a grid reads back;
* `StreamLexer.Binary64.toBinary64_shortest` — **what is chosen reads back**.
-/

import StreamLexer.Decimal.Shortest
import StreamLexer.Proofs.Rounding

set_option relaxedAutoImplicit false
set_option autoImplicit false

namespace StreamLexer

/-- **Trailing zeros make no difference.** -/
theorem Decimal.value_strip (d : Decimal) : d.strip.value = d.value := by
  fun_induction Decimal.strip d with
  | case1 d h0 => rfl
  | case2 d h0 h10 ih =>
      obtain ⟨q, hq⟩ : 10 ∣ d.digits := Nat.dvd_of_mod_eq_zero h10
      rw [ih, value, value, hq, Nat.mul_div_cancel_left q (by decide), zpow_add₀ (by norm_num)]
      push_cast
      ring
  | case3 d h0 h10 => rfl

namespace Binary64

/-- The value with a magnitude that is no more than that of infinity. -/
def ofMagnitude (m : Nat) (h : m ≤ infinityMagnitude) : Binary64 where
  negative := false
  magnitude := m
  magnitude_lt := Nat.lt_of_le_of_lt h (by decide)

theorem eq_ofMagnitude {x : Binary64} (hsign : x.negative = false)
    (h : x.magnitude ≤ infinityMagnitude) : x = ofMagnitude x.magnitude h := by
  obtain ⟨negative, m, hm⟩ := x
  obtain rfl : negative = false := hsign
  rfl

variable {m : Nat}

theorem toBinary64_eq_of_magnitude {d : Decimal} {h : m ≤ infinityMagnitude}
    (hd : d.toBinary64.magnitude = m) : d.toBinary64 = ofMagnitude m h := by
  rw [Decimal.toBinary64_eq_ofRatio] at hd ⊢
  subst hd
  rfl

/-- **The exact value is read as itself.** -/
theorem magnitude_exactDecimal (h : m ≤ infinityMagnitude) :
    (exactDecimal m).toBinary64.magnitude = m := by
  have hcross : (exactDecimal m).num * one = unitsOf m * (exactDecimal m).den := by
    obtain ⟨n, hn, hone⟩ := exists_one_eq
    have hexponent : (-1074 : Int) = -(n : Int) := by omega
    have hnum : (exactDecimal m).num = unitsOf m * 5 ^ n := by
      unfold exactDecimal
      rw [hexponent, hn]
      simp [Decimal.num]
    have hden : (exactDecimal m).den = 5 ^ n * 2 ^ n := by
      unfold exactDecimal
      rw [hexponent, ← Nat.mul_pow]
      simp [Decimal.den]
    rw [hnum, hden, hone, Nat.mul_assoc]
  rw [Decimal.toBinary64_eq_ofRatio]
  calc magnitudeOfRatio (exactDecimal m).num (exactDecimal m).den
      = magnitudeOfRatio (unitsOf m) one :=
        magnitudeOfRatio_congr (exactDecimal m).den_pos one_pos hcross
    _ = m := magnitudeOfRatio_unitsOf h

theorem nearer_eq (tie : Tie) (m lower : Nat) (step : Int) :
    nearer tie m lower step = lower ∨ nearer tie m lower step = lower + 1 := by
  unfold nearer
  dsimp only
  split
  · exact Or.inl rfl
  · split
    · exact Or.inr rfl
    · cases tie with
      | toEven =>
          rcases Nat.mod_two_eq_zero_or_one lower with heven | hodd
          · exact Or.inl (by simp only [heven, Nat.add_zero])
          · exact Or.inr (by simp only [hodd])
      | up => exact Or.inr rfl

/-- **The decimal of a grid reads back.** -/
theorem readsBack_of_onGrid? {tie : Tie} {step : Int} {d : Decimal}
    (h : onGrid? tie m step = some d) : readsBack m d = true := by
  unfold onGrid? at h
  dsimp only at h
  split at h
  · next hlower hupper =>
      obtain rfl := Option.some.inj h
      rcases nearer_eq tie m (gridFloor m step) step with hn | hn
      · rw [hn]
        exact hlower
      · rw [hn]
        exact hupper
  · next hlower _ =>
      obtain rfl := Option.some.inj h
      exact hlower
  · next _ hupper =>
      obtain rfl := Option.some.inj h
      exact hupper
  · cases h

/-- **What is chosen reads back.** -/
theorem toBinary64_shortest (tie : Tie) (h : m ≤ infinityMagnitude) :
    (shortest tie m).toBinary64 = ofMagnitude m h := by
  refine toBinary64_eq_of_magnitude ?_
  unfold shortest
  dsimp only
  rw [Decimal.toBinary64_congr (Decimal.value_strip _)]
  cases hf : (List.range 17).findSome? fun n => onGrid? tie m (scale m - (n + 1 : Nat)) with
  | none => exact magnitude_exactDecimal h
  | some d =>
      obtain ⟨n, _, hn⟩ := List.exists_of_findSome?_eq_some hf
      exact beq_iff_eq.1 (readsBack_of_onGrid? hn)

end Binary64

end StreamLexer
