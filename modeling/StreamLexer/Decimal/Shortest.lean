/-
**The shortest decimal that reads back.**

A finite double-precision value is written with the fewest digits that identify it.  For one, two,
… digits there is a grid of decimals, and the value lies between two neighbours on it; the first
grid on which one of them reads back decides, and of two that read back the nearer is taken.  When
both are equally near the rule for ties decides, which is a choice of the format.  Should no grid
do, the value is written out exactly, so what is chosen reads back in any case.

Main definitions:

* `StreamLexer.Tie` — which of two equally near decimals is taken;
* `StreamLexer.digitCount` — the number of decimal digits of a natural number;
* `StreamLexer.Decimal.strip` — the same value without trailing zeros;
* `StreamLexer.Binary64.exactDecimal` — the exact value;
* `StreamLexer.Binary64.shortest` — **the shortest decimal that reads back**.
-/

import StreamLexer.Decimal.Basic

set_option relaxedAutoImplicit false
set_option autoImplicit false

namespace StreamLexer

/-- Which of two equally near decimals with the same number of digits is taken. -/
inductive Tie where
  /-- The one whose last digit is even. -/
  | toEven
  /-- The larger one. -/
  | up
deriving DecidableEq, Repr

/-- The number of decimal digits of `n`; zero has one. -/
def digitCount (n : Nat) : Nat := if n < 10 then 1 else digitCount (n / 10) + 1

/-- The same value without trailing zeros. -/
def Decimal.strip (d : Decimal) : Decimal :=
  if d.digits = 0 then d
  else if d.digits % 10 = 0 then strip ⟨d.digits / 10, d.exponent + 1⟩
  else d
termination_by d.digits
decreasing_by exact Nat.div_lt_self (Nat.pos_of_ne_zero ‹_›) (by decide)

namespace Binary64

/-- The exact value of a finite magnitude: a unit is `5 ^ 1074 · 10 ^ -1074`. -/
def exactDecimal (magnitude : Nat) : Decimal := ⟨unitsOf magnitude * Nat.pow 5 1074, -1074⟩

/-- The least power of ten above a nonzero magnitude.  Scaled by `10 ^ 324` even the least positive
value has a digit before the point, so counting digits there loses nothing. -/
def scale (magnitude : Nat) : Int := digitCount (unitsOf magnitude * Nat.pow 10 324 / one) - 324

/-- The last point at or below the value on the grid of multiples of `10 ^ step`. -/
def gridFloor (magnitude : Nat) (step : Int) : Nat :=
  unitsOf magnitude * Nat.pow 10 (-step).toNat / (one * Nat.pow 10 step.toNat)

/-- Whether a decimal is read as the value with this magnitude. -/
def readsBack (magnitude : Nat) (d : Decimal) : Bool := d.toBinary64.magnitude == magnitude

/-- Of the points `lower` and `lower + 1` of a grid, the one nearer to the value between them. -/
def nearer (tie : Tie) (magnitude lower : Nat) (step : Int) : Nat :=
  let twice := 2 * unitsOf magnitude * Nat.pow 10 (-step).toNat
  let sum := (2 * lower + 1) * one * Nat.pow 10 step.toNat
  if twice < sum then lower
  else if sum < twice then lower + 1
  else match tie with
    | .toEven => lower + lower % 2
    | .up => lower + 1

/-- The point of a grid that the value is written as, if one next to it reads back. -/
def onGrid? (tie : Tie) (magnitude : Nat) (step : Int) : Option Decimal :=
  let lower := gridFloor magnitude step
  match readsBack magnitude ⟨lower, step⟩, readsBack magnitude ⟨lower + 1, step⟩ with
  | true, true => some ⟨nearer tie magnitude lower step, step⟩
  | true, false => some ⟨lower, step⟩
  | false, true => some ⟨lower + 1, step⟩
  | false, false => none

/-- **The shortest decimal that reads back** as a finite nonzero magnitude. -/
def shortest (tie : Tie) (magnitude : Nat) : Decimal :=
  let top := scale magnitude
  -- One more digit at each turn, from one to seventeen.
  let found :=
    (List.range 17).findSome? fun (n : Nat) => onGrid? tie magnitude (top - (n + 1 : Nat))
  (found.getD (exactDecimal magnitude)).strip

end Binary64

end StreamLexer
