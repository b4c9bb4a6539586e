/-
**Reading a numeral at the head of a text.**

A numeral is a sign, a mantissa of digits with at most one point, and an exponent; the sign and
the exponent may be missing, and so may the digits on one side of the point.  What follows the
longest such reading is ignored.  Two words also stand for values, in any case and without a
sign; a text that starts with neither a numeral nor such a word is worth zero.

Mantissas of any length count in full.  An exponent is read up to a cap far above every exponent of
a value in range: only a mantissa with tens of thousands of zeros makes up for one that large.

Main definitions:

* `StreamLexer.digitsValue` — the number that a run of digits writes;
* `StreamLexer.Mantissa`, `StreamLexer.Mantissa.read?` — the mantissa at the head of a text and
  the text after it;
* `StreamLexer.exponentCap`, `StreamLexer.readExponent?` — the exponent that follows a mantissa,
  if it is well formed;
* `StreamLexer.numberValue` — **the value of a text**.
-/

import StreamLexer.Decimal.Basic
import StreamLexer.Decimal.Digits

set_option relaxedAutoImplicit false
set_option autoImplicit false

namespace StreamLexer

/-- The value of a decimal digit. -/
def digitValue (c : Char) : Nat := c.toNat - '0'.toNat

/-- The number written by a run of digits. -/
def digitsValue (cs : List Char) : Nat := Digits.value (cs.map digitValue)

/-- The digits before and after the point of a numeral. -/
structure Mantissa where
  whole : List Char
  fraction : List Char
deriving DecidableEq, Repr

namespace Mantissa

/-- The longest mantissa at the head of a text, and what follows it: digits, with a point and
further digits after them if the point is there, or a point and at least one digit. -/
def read? (cs : List Char) : Option (Mantissa × List Char) :=
  let whole := cs.takeWhile Char.isDigit
  match cs.dropWhile Char.isDigit with
  | '.' :: rest =>
      let fraction := rest.takeWhile Char.isDigit
      if whole.isEmpty && fraction.isEmpty then none
      else some (⟨whole, fraction⟩, rest.dropWhile Char.isDigit)
  | rest => if whole.isEmpty then none else some (⟨whole, []⟩, rest)

/-- The value of a mantissa scaled by `10 ^ scale`: the digits after the point each lower the power
of the last digit by one. -/
def toDecimal (m : Mantissa) (scale : Int) : Decimal where
  digits := digitsValue (m.whole ++ m.fraction)
  exponent := scale - m.fraction.length

end Mantissa

/-- A sign at the head of a text, and the text after it. -/
def readSign : List Char → Bool × List Char
  | '+' :: cs => (false, cs)
  | '-' :: cs => (true, cs)
  | cs => (false, cs)

/-- The cap on exponents: `2 ^ 16`. -/
def exponentCap : Nat := 0x10000

/-- The power of ten after a mantissa.  Without the letter it is zero; after the letter at least
one digit must follow, or the whole numeral is malformed.  Digits after the cap has been reached
are passed over. -/
def readExponent? : List Char → Option Int
  | c :: cs =>
      if c = 'e' || c = 'E' then
        let (negative, cs) := readSign cs
        let ds := cs.takeWhile Char.isDigit
        if ds.isEmpty then none
        else
          let n : Int := Digits.cappedValue exponentCap (ds.map digitValue)
          some (if negative then -n else n)
      else some 0
  | [] => some 0

/-- The value of a text that starts with no numeral: one of two words in any case, or zero. -/
def wordValue (cs : List Char) : Binary64 :=
  let word := (cs.take 3).map Char.toLower
  if word = ['n', 'a', 'n'] then .notANumber
  else if word = ['i', 'n', 'f'] then .infinity
  else .zero

/-- **The value of the longest numeral at the head of a text**, rounded to the nearest
double-precision value. -/
def numberValue (cs : List Char) : Binary64 :=
  let (negative, body) := readSign cs
  match Mantissa.read? body with
  | none => wordValue cs
  | some (mantissa, rest) =>
      match readExponent? rest with
      | none => .zero
      | some scale => (mantissa.toDecimal scale).toBinary64.withSign negative

end StreamLexer
