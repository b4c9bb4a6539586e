/-
**Decimal values.**

A decimal is a natural number scaled by a power of ten.  It is what a numeral denotes and what the
printers of numbers choose, so reading and printing meet in one definition: the double-precision
value nearest to it.

Main definitions:

* `StreamLexer.Decimal` — `digits · 10 ^ exponent`;
* `StreamLexer.Decimal.num`, `StreamLexer.Decimal.den` — the same as a fraction;
* `StreamLexer.Decimal.toBinary64` — the nearest double-precision value.
-/

import StreamLexer.Binary64.Rounding

set_option relaxedAutoImplicit false
set_option autoImplicit false

namespace StreamLexer

/-- The value `digits · 10 ^ exponent`. -/
structure Decimal where
  /-- The significant digits, as a number. -/
  digits : Nat
  /-- The power of ten of the last digit. -/
  exponent : Int
deriving DecidableEq, Repr

namespace Decimal

/-- The numerator of the value. -/
def num (d : Decimal) : Nat := d.digits * Nat.pow 10 d.exponent.toNat

/-- The denominator of the value, a power of ten. -/
def den (d : Decimal) : Nat := Nat.pow 10 (-d.exponent).toNat

/-- Whether a nonzero value is beyond every finite double-precision value: `10 ^ 400` is. -/
def isHuge (d : Decimal) : Bool := 400 < d.exponent

/-- Whether a value is nearer to zero than to the least positive double-precision value: below
`10 ^ -400` it is, and `digits` is below `10 ^ (log2 digits + 1)`. -/
def isTiny (d : Decimal) : Bool := d.exponent + d.digits.log2 + 401 < 0

/-- **The nearest double-precision value.**  Values far outside its range are settled without
writing out their powers of ten. -/
def toBinary64 (d : Decimal) : Binary64 :=
  if d.digits = 0 then .zero
  else if d.isHuge then .infinity
  else if d.isTiny then .zero
  else .ofRatio d.num d.den

end Decimal

end StreamLexer
