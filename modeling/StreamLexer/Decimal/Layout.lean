/-
**How numbers are written.**

Two formats share the choice of digits and differ in layout.  In running text a number is written
positionally whatever its size, an integral one without a point.  In a data line the layout is
positional as long as the leading digit stands for `10 ^ -5` up to `10 ^ 15`, and an integral
number keeps a zero after its point; beyond that an exponent is written, with its sign and without
padding.  Both keep the sign of zero.

Main definitions:

* `StreamLexer.Decimal.positional` — digits and a point, without an exponent;
* `StreamLexer.Decimal.scientific` — one digit before the point, and an exponent;
* `StreamLexer.Binary64.text` — a value in running text;
* `StreamLexer.Binary64.dataText` — a finite value in a data line.
-/

import StreamLexer.Decimal.Shortest

set_option relaxedAutoImplicit false
set_option autoImplicit false

namespace StreamLexer

namespace Decimal

/-- The digits, most significant first. -/
def digitChars (d : Decimal) : List Char := Nat.toDigits 10 d.digits

/-- The power of ten of the leading digit. -/
def leadingExponent (d : Decimal) : Int := d.exponent + d.digitChars.length - 1

/-- The value without an exponent: zeros fill the places between the digits and the point. -/
def positional (d : Decimal) : List Char :=
  let ds := d.digitChars
  let wholeLength := d.exponent + ds.length
  if 0 ≤ d.exponent then ds ++ List.replicate d.exponent.toNat '0'
  else if 0 < wholeLength then ds.take wholeLength.toNat ++ '.' :: ds.drop wholeLength.toNat
  else '0' :: '.' :: List.replicate (-wholeLength).toNat '0' ++ ds

/-- The value with an exponent: the leading digit, the others after a point, and the power of ten
with its sign. -/
def scientific (d : Decimal) : List Char :=
  let mantissa := match d.digitChars with
    | [] => []
    | [c] => [c]
    | c :: cs => c :: '.' :: cs
  let e := d.leadingExponent
  mantissa ++ 'e' :: (if e < 0 then '-' else '+') :: Nat.toDigits 10 e.natAbs

end Decimal

namespace Binary64

/-- The sign of a value, written for negative ones only. -/
def signChars (x : Binary64) : List Char := if x.negative then ['-'] else []

/-- **A value in running text**: positional, the fewest digits that read back, the larger of two
equally near decimals. -/
def text (x : Binary64) : String :=
  if x.isNaN then "NaN"
  else
    let body :=
      if !x.isFinite then ['i', 'n', 'f']
      else if x.magnitude = 0 then ['0']
      else (shortest .up x.magnitude).positional
    String.ofList (x.signChars ++ body)

/-- **A finite value in a data line**: the fewest digits that read back, the even one of two equally
near decimals, and a point or an exponent in any case. -/
def dataText (x : Binary64) : String :=
  let body :=
    if x.magnitude = 0 then ['0', '.', '0']
    else
      let d := shortest .toEven x.magnitude
      if -5 ≤ d.leadingExponent && d.leadingExponent < 16 then
        d.positional ++ if 0 ≤ d.exponent then ['.', '0'] else []
      else d.scientific
  String.ofList (x.signChars ++ body)

end Binary64

end StreamLexer
