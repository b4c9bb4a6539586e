/-
**Rounding a fraction to the nearest double-precision value.**

A nonnegative fraction is scaled to units of `2 ^ -1074`.  Its binary length says which exponent
the result has, hence how many trailing bits must go; what remains is one division rounded half to
even.  A quotient that rounds up to the next power of two needs no correction: adding it to the
exponent field carries into the exponent.

Main definitions:

* `StreamLexer.roundHalfEven` — a quotient of naturals, rounded to the nearest integer, a half to
  the even one;
* `StreamLexer.Binary64.ofRatio` — the double-precision value nearest to a fraction;
* `StreamLexer.Binary64.mul`, `StreamLexer.Binary64.div` — the exact product and quotient of two
  finite values, rounded once.
-/

import StreamLexer.Binary64.Basic

set_option relaxedAutoImplicit false
set_option autoImplicit false

namespace StreamLexer

/-- The integer nearest to `a / b`; of two equally near ones the even one. -/
def roundHalfEven (a b : Nat) : Nat :=
  let q := a / b
  let r := a % b
  if 2 * r < b then q else if b < 2 * r then q + 1 else q + q % 2

namespace Binary64

/-- The number of trailing bits, in units of `2 ^ -1074`, that do not fit a significand of 53
bits. -/
def excess (units : Nat) : Nat := units.log2 - 52

/-- The magnitude nearest to `num / den`. -/
def magnitudeOfRatio (num den : Nat) : Nat :=
  let s := excess (num * one / den)
  -- Past the subnormals the significand keeps its leading one, which raises the exponent field by
  -- one.
  min (s * exponentWeight + roundHalfEven (num * one) (den * Nat.pow 2 s)) infinityMagnitude

/-- **The nearest double-precision value** to the fraction `num / den`, ties to the even
significand; from halfway between the largest finite value and `2 ^ 1024` on, infinity. -/
def ofRatio (num den : Nat) : Binary64 where
  negative := false
  magnitude := magnitudeOfRatio num den
  magnitude_lt := Nat.lt_of_le_of_lt (Nat.min_le_right _ _) (by decide)

/-- The product of two finite nonnegative values, rounded once. -/
def mul (x y : Binary64) : Binary64 :=
  ofRatio (unitsOf x.magnitude * unitsOf y.magnitude) (one * one)

/-- The quotient of two finite nonnegative values, rounded once. -/
def div (x y : Binary64) : Binary64 :=
  ofRatio (unitsOf x.magnitude) (unitsOf y.magnitude)

end Binary64

end StreamLexer
