/-
**Double-precision values.**

A binary64 value is a sign and a magnitude: the lower 63 bits of its word, read as a natural number.
The order of magnitudes is the order of the values they stand for — first zero, then the
subnormals, the normals, infinity, and last the patterns that are not a number — so rounding is
arithmetic on magnitudes and no machine float is involved.

Main definitions:

* `StreamLexer.Binary64` — a sign and a magnitude below `2 ^ 63`;
* `StreamLexer.Binary64.ofBits`, `StreamLexer.Binary64.toBits` — the interchange word;
* `StreamLexer.Binary64.unitsOf` — the exact value of a finite magnitude, counted in units of
  `2 ^ -1074`, the least positive value;
* `StreamLexer.Binary64.equal` — numeric equality: the two zeros agree, and nothing equals a
  value that is not a number.

Main results:

* `StreamLexer.Binary64.ofBits_toBits` — **the word determines the value**.
-/

set_option relaxedAutoImplicit false
set_option autoImplicit false

namespace StreamLexer

/-- The weight of the sign bit in the word: `2 ^ 63`. -/
abbrev Binary64.signWeight : Nat := 0x8000000000000000

/-- The weight of the last bit of the exponent field in the word: `2 ^ 52`. -/
abbrev Binary64.exponentWeight : Nat := 0x10000000000000

/-- A double-precision value: its sign, and the lower 63 bits of its word as a number. -/
structure Binary64 where
  /-- The sign bit. -/
  negative : Bool
  /-- Exponent field and fraction field together. -/
  magnitude : Nat
  magnitude_lt : magnitude < Binary64.signWeight
deriving DecidableEq, Repr

namespace Binary64

/-! ### The interchange word -/

/-- The value with the word `w`. -/
def ofBits (w : UInt64) : Binary64 where
  negative := decide (signWeight ≤ w.toNat)
  magnitude := w.toNat % signWeight
  magnitude_lt := Nat.mod_lt _ (by decide)

/-- The word of a value. -/
def toBits (x : Binary64) : UInt64 :=
  UInt64.ofNat (x.magnitude + if x.negative then signWeight else 0)

/-- The number written by a word that fits. -/
theorem toNat_toBits (x : Binary64) :
    x.toBits.toNat = x.magnitude + if x.negative then signWeight else 0 := by
  have h := x.magnitude_lt
  rw [toBits, UInt64.toNat_ofNat', Nat.mod_eq_of_lt]
  unfold signWeight at h ⊢
  cases x.negative
  · rw [if_neg Bool.false_ne_true]; omega
  · rw [if_pos rfl]; omega

/-- **Writing the word and reading it back is the identity.** -/
theorem ofBits_toBits (x : Binary64) : ofBits x.toBits = x := by
  have hword := toNat_toBits x
  obtain ⟨negative, magnitude, h⟩ := x
  unfold ofBits
  generalize toBits ⟨negative, magnitude, h⟩ = w at hword
  have hlt : magnitude < 0x8000000000000000 := h
  cases negative with
  | false =>
      have hw : w.toNat = magnitude := hword
      congr 1
      · exact decide_eq_false (by unfold signWeight; omega)
      · rw [hw]; exact Nat.mod_eq_of_lt hlt
  | true =>
      have hw : w.toNat = magnitude + signWeight := hword
      congr 1
      · exact decide_eq_true (by rw [hw]; exact Nat.le_add_left _ _)
      · rw [hw, Nat.add_mod_right]; exact Nat.mod_eq_of_lt hlt

/-! ### Kinds of value -/

/-- The magnitude of infinity; every larger one is not a number. -/
def infinityMagnitude : Nat := 2047 * exponentWeight

/-- Whether the pattern stands for no number. -/
def isNaN (x : Binary64) : Bool := infinityMagnitude < x.magnitude

/-- Whether the value is a real number. -/
def isFinite (x : Binary64) : Bool := x.magnitude < infinityMagnitude

/-- Positive zero. -/
def zero : Binary64 := ⟨false, 0, by decide⟩

/-- Positive infinity. -/
def infinity : Binary64 := ⟨false, infinityMagnitude, by decide⟩

/-- The pattern with the highest fraction bit set, which stands for no number. -/
def notANumber : Binary64 := ⟨false, infinityMagnitude + exponentWeight / 2, by decide⟩

/-- The same value with the sign bit `negative`. -/
def withSign (negative : Bool) (x : Binary64) : Binary64 := { x with negative := negative }

/-- Numeric equality. -/
def equal (x y : Binary64) : Bool :=
  !x.isNaN && !y.isNaN && (x.magnitude == 0 && y.magnitude == 0 || x == y)

/-! ### The exact value -/

/-- The value of a finite magnitude in units of `2 ^ -1074`.  Without an exponent field the
fraction counts units; each step of the exponent field beyond the first doubles the unit, and
there the significand has a leading one.  At infinity this is the bound `2 ^ 1024`. -/
def unitsOf (magnitude : Nat) : Nat :=
  let exponent := magnitude / exponentWeight
  let fraction := magnitude % exponentWeight
  if exponent = 0 then fraction
  else (exponentWeight + fraction) * Nat.pow 2 (exponent - 1)

/-- The number of units in one. -/
def one : Nat := Nat.pow 2 1074

end Binary64

end StreamLexer
