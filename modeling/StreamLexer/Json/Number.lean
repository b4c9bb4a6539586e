/-
**Numbers in a JSON text.**

A number is an optional sign, a whole part without leading zeros, and possibly a fraction and an
exponent.  Without the last two it is an integer as long as a machine word holds it, unsigned or,
below zero, signed.  Every other number is a double-precision value: as many digits as fit a word
are gathered into a significand, which is rounded and then multiplied or divided by a power of
ten, itself rounded.  A value beyond the finite ones is refused.

Main definitions:

* `StreamLexer.Json.Numeral`, `StreamLexer.Json.readNumeral` — the parts of a number, and their
  grammar;
* `StreamLexer.Json.Significand` — the digits gathered so far and the power of ten of the last;
* `StreamLexer.Json.Number`, `StreamLexer.Json.Numeral.value` — **the value of a number**;
* `StreamLexer.Json.readNumber`, `StreamLexer.Json.skipNumber` — a number that is wanted, and one
  that is passed over.
-/

import StreamLexer.Decimal.Digits
import StreamLexer.Json.Reader

set_option relaxedAutoImplicit false
set_option autoImplicit false

namespace StreamLexer.Json

/-! ### The grammar -/

/-- The parts of a number. -/
structure Numeral where
  negative : Bool
  whole : List UInt8
  fraction : Option (List UInt8)
  exponent : Option Int
deriving DecidableEq, Repr

/-- The value of a digit. -/
def digitValue (b : UInt8) : Nat := b.toNat - 48

/-- A run of at least one digit; if there is none, `atEnd` is the cause at the end of the text. -/
def someDigits (atEnd : ReadError) : Reader (List UInt8) := do
  let ds ← digits
  if ds.isEmpty then
    match ← peekByte with
    | none => throw atEnd
    | some _ => throw .invalidNumber
  else pure ds

/-- The whole part, its first byte already taken off: a zero, or digits that start with another. -/
def readWhole (first : UInt8) : Reader (List UInt8) := do
  if first = byte '0' then
    match ← peekByte with
    | some d => if isDigit d then throw .invalidNumber else pure [first]
    | none => pure [first]
  else if isDigit first then do
    let ds ← digits
    pure (first :: ds)
  else throw .invalidNumber

/-- The digits after a point, if the point is there. -/
def readFraction (atEnd : ReadError) : Reader (Option (List UInt8)) := do
  match ← peekByte with
  | some b =>
      if b = byte '.' then do
        let _ ← nextByte
        let ds ← someDigits atEnd
        pure (some ds)
      else pure none
  | none => pure none

/-- A sign, taken off if it is there. -/
def readSign : Reader Bool := do
  match ← peekByte with
  | some b =>
      if b = byte '-' then do
        let _ ← nextByte
        pure true
      else if b = byte '+' then do
        let _ ← nextByte
        pure false
      else pure false
  | none => pure false

/-- The cap on exponents: `2 ^ 31`.  Only a text of billions of digits could make up for one that
large, so from there on a value is zero or out of range and its exact exponent does not matter. -/
def exponentCap : Nat := 0x80000000

/-- The exponent, if its letter is there. -/
def readExponent (atEnd : ReadError) : Reader (Option Int) := do
  match ← peekByte with
  | some b =>
      if b = byte 'e' || b = byte 'E' then do
        let _ ← nextByte
        let negative ← readSign
        let ds ← someDigits atEnd
        let n : Int := Digits.cappedValue exponentCap (ds.map digitValue)
        pure (some (if negative then -n else n))
      else pure none
  | none => pure none

/-- The parts of a number whose sign is known, its first digit already taken off. -/
def readParts (atEnd : ReadError) (negative : Bool) (first : UInt8) : Reader Numeral := do
  let whole ← readWhole first
  let fraction ← readFraction atEnd
  let exponent ← readExponent atEnd
  pure ⟨negative, whole, fraction, exponent⟩

/-- **The parts of a number**, its first byte already taken off.  Where the text ends inside the
number, `atEnd` is the cause. -/
def readNumeral (atEnd : ReadError) (first : UInt8) : Reader Numeral := do
  if first = byte '-' then
    match ← nextByte with
    | none => throw atEnd
    | some d => readParts atEnd true d
  else readParts atEnd false first

/-! ### The value -/

/-- A number that has been read. -/
inductive Number where
  | unsigned (n : UInt64)
  /-- An integer below zero that a signed word holds. -/
  | negative (n : Int)
  | float (x : Binary64)
deriving DecidableEq, Repr

/-- Digits gathered into a word. -/
structure Significand where
  value : Nat
  /-- Whether a digit has been left out. -/
  full : Bool
  /-- The power of ten of the last digit. -/
  exponent : Int
deriving DecidableEq, Repr

namespace Significand

/-- One more digit, if a word still holds the result. -/
def append? (s : Significand) (b : UInt8) : Option Nat :=
  let n := 10 * s.value + digitValue b
  if !s.full && n < UInt64.size then some n else none

/-- One more digit before the point.  A digit left out raises the power of the last one. -/
def addWhole (s : Significand) (b : UInt8) : Significand :=
  match s.append? b with
  | some n => { s with value := n }
  | none => { s with full := true, exponent := s.exponent + 1 }

/-- One more digit after the point.  A digit left out changes nothing. -/
def addFraction (s : Significand) (b : UInt8) : Significand :=
  match s.append? b with
  | some n => { s with value := n, exponent := s.exponent - 1 }
  | none => { s with full := true }

end Significand

/-- A power of ten, rounded. -/
def powerOfTen (e : Nat) : Binary64 := .ofRatio (Nat.pow 10 e) 1

/-- The largest power of ten that is finite. -/
def maxPower : Nat := 308

/-- A value times a power of ten, rounded at each step; `none` if it is not finite. -/
def scale? (x : Binary64) (e : Int) : Option Binary64 :=
  if e.natAbs ≤ maxPower then
    if 0 ≤ e then
      let y := x.mul (powerOfTen e.natAbs)
      if y.isFinite then some y else none
    else some (x.div (powerOfTen e.natAbs))
  else if x.magnitude = 0 then some x
  else if 0 ≤ e then none
  else scale? (x.div (powerOfTen maxPower)) (e + maxPower)
termination_by (-e).toNat
decreasing_by simp only [maxPower] at *; omega

/-- An integer of the given sign, if a word holds it.  Zero below zero is no integer. -/
def integer? (negative : Bool) (n : Nat) : Option Number :=
  if negative then
    if n = 0 || UInt64.size / 2 < n then none else some (.negative (-(n : Int)))
  else some (.unsigned (UInt64.ofNat n))

namespace Numeral

/-- The digits before the point, gathered. -/
def wholeSignificand (x : Numeral) : Significand := x.whole.foldl .addWhole ⟨0, false, 0⟩

/-- The integer that a numeral without fraction and exponent writes, if a word holds it. -/
def integerValue? (x : Numeral) : Option Number :=
  let s := x.wholeSignificand
  if x.fraction.isNone && x.exponent.isNone && !s.full then integer? x.negative s.value else none

/-- The double-precision value of a numeral, or `none` beyond the finite ones.  Gathering starts
afresh after the point, so a short digit there may still be taken. -/
def floatValue? (x : Numeral) : Option Binary64 :=
  let s := (x.fraction.getD []).foldl .addFraction { x.wholeSignificand with full := false }
  (scale? (.ofRatio s.value 1) (s.exponent + x.exponent.getD 0)).map (.withSign x.negative)

/-- **The value of a number.** -/
def value (x : Numeral) : Except ReadError Number :=
  match x.integerValue? with
  | some n => .ok n
  | none =>
      match x.floatValue? with
      | some y => .ok (.float y)
      | none => .error .numberOutOfRange

end Numeral

/-- A number, its first byte already taken off. -/
def readNumber (first : UInt8) : Reader Number := do
  let x ← readNumeral .endInValue first
  match x.value with
  | .ok n => pure n
  | .error e => throw e

/-- Passes over a number, its first byte already taken off; its size does not matter. -/
def skipNumber (first : UInt8) : Reader Unit := do
  let _ ← readNumeral .invalidNumber first
  pure ()

/-! ### Progress -/

theorem shrinks_someDigits (atEnd : ReadError) : Shrinks (someDigits atEnd) := by
  refine Shrinks.bind shrinks_digits fun ds => ?_
  split
  · refine Shrinks.bind shrinks_peekByte fun o => ?_
    split
    · exact Shrinks.throw _
    · exact Shrinks.throw _
  · exact Shrinks.pure _

theorem shrinks_readWhole (first : UInt8) : Shrinks (readWhole first) := by
  unfold readWhole
  split
  · refine Shrinks.bind shrinks_peekByte fun o => ?_
    split
    · split
      · exact Shrinks.throw _
      · exact Shrinks.pure _
    · exact Shrinks.pure _
  · split
    · exact Shrinks.bind shrinks_digits fun _ => Shrinks.pure _
    · exact Shrinks.throw _

theorem shrinks_readFraction (atEnd : ReadError) : Shrinks (readFraction atEnd) := by
  refine Shrinks.bind shrinks_peekByte fun o => ?_
  split
  · split
    · refine Shrinks.bind shrinks_nextByte fun _ => ?_
      exact Shrinks.bind (shrinks_someDigits _) fun _ => Shrinks.pure _
    · exact Shrinks.pure _
  · exact Shrinks.pure _

theorem shrinks_readSign : Shrinks readSign := by
  refine Shrinks.bind shrinks_peekByte fun o => ?_
  split
  · split
    · exact Shrinks.bind shrinks_nextByte fun _ => Shrinks.pure _
    · split
      · exact Shrinks.bind shrinks_nextByte fun _ => Shrinks.pure _
      · exact Shrinks.pure _
  · exact Shrinks.pure _

theorem shrinks_readExponent (atEnd : ReadError) : Shrinks (readExponent atEnd) := by
  refine Shrinks.bind shrinks_peekByte fun o => ?_
  split
  · split
    · refine Shrinks.bind shrinks_nextByte fun _ => ?_
      refine Shrinks.bind shrinks_readSign fun _ => ?_
      exact Shrinks.bind (shrinks_someDigits _) fun _ => Shrinks.pure _
    · exact Shrinks.pure _
  · exact Shrinks.pure _

theorem shrinks_readParts (atEnd : ReadError) (negative : Bool) (first : UInt8) :
    Shrinks (readParts atEnd negative first) := by
  refine Shrinks.bind (shrinks_readWhole _) fun _ => ?_
  refine Shrinks.bind (shrinks_readFraction _) fun _ => ?_
  exact Shrinks.bind (shrinks_readExponent _) fun _ => Shrinks.pure _

theorem shrinks_readNumeral (atEnd : ReadError) (first : UInt8) :
    Shrinks (readNumeral atEnd first) := by
  unfold readNumeral
  split
  · refine Shrinks.bind shrinks_nextByte fun o => ?_
    split
    · exact Shrinks.throw _
    · exact shrinks_readParts _ _ _
  · exact shrinks_readParts _ _ _

theorem shrinks_readNumber (first : UInt8) : Shrinks (readNumber first) := by
  refine Shrinks.bind (shrinks_readNumeral _ _) fun x => ?_
  split
  · exact Shrinks.pure _
  · exact Shrinks.throw _

theorem shrinks_skipNumber (first : UInt8) : Shrinks (skipNumber first) :=
  Shrinks.bind (shrinks_readNumeral _ _) fun _ => Shrinks.pure _

end StreamLexer.Json
