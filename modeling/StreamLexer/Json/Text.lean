/-
**Strings in a JSON text.**

A string runs to the first quote that no backslash stands before.  A backslash and a letter stand
for a character, and so do four hexadecimal digits; a character beyond U+FFFF takes two such
escapes, which have to be paired.  Characters below U+0020 may not stand for themselves, and the
bytes of the whole must be the encoding of a text.  A string that is passed over is held to the
same form, but its escapes need not be paired and its bytes need not be an encoding.

Main definitions:

* `StreamLexer.Json.hexEscape` — the four digits of an escape;
* `StreamLexer.Json.escape` — what follows a backslash;
* `StreamLexer.Json.stringBytes` — the bytes up to the closing quote;
* `StreamLexer.Json.readString`, `StreamLexer.Json.skipString` — **a string** that is wanted, and
  one that is passed over.
-/

import StreamLexer.Json.Reader
import StreamLexer.Text.Utf8

set_option relaxedAutoImplicit false
set_option autoImplicit false

namespace StreamLexer.Json

/-! ### Escapes -/

/-- The value of a hexadecimal digit of either case. -/
def hexValue? (b : UInt8) : Option Nat :=
  if isDigit b then some (b.toNat - 48)
  else if byte 'a' ≤ b && b ≤ byte 'f' then some (b.toNat - 87)
  else if byte 'A' ≤ b && b ≤ byte 'F' then some (b.toNat - 55)
  else none

/-- The next byte of a string that must go on. -/
def byteInString : Reader UInt8 := do
  match ← nextByte with
  | none => throw .endInString
  | some b => pure b

/-- The number written by four hexadecimal digits.  All four bytes are taken before they are looked
at. -/
def hexEscape : Reader Nat := do
  let a ← byteInString
  let b ← byteInString
  let c ← byteInString
  let d ← byteInString
  match hexValue? a, hexValue? b, hexValue? c, hexValue? d with
  | some a, some b, some c, some d => pure (((a * 16 + b) * 16 + c) * 16 + d)
  | _, _, _, _ => throw .invalidEscape

/-- The given character, which must come next in a string. -/
def expectInString (c : Char) (otherwise : ReadError) : Reader Unit := do
  let b ← byteInString
  if b = byte c then pure () else throw otherwise

/-- Whether a number is the first half of a pair. -/
def isLeading (n : Nat) : Bool := 0xD800 ≤ n && n < 0xDC00

/-- Whether a number is the second half of a pair. -/
def isTrailing (n : Nat) : Bool := 0xDC00 ≤ n && n < 0xE000

/-- The character written by its number, or by the two halves of a pair. -/
def codePointEscape : Reader Char := do
  let n ← hexEscape
  if isTrailing n then throw .loneSurrogate
  else if isLeading n then do
    expectInString '\\' .unexpectedEndOfEscape
    expectInString 'u' .unexpectedEndOfEscape
    let m ← hexEscape
    if isTrailing m then pure (Char.ofNat (0x10000 + (n - 0xD800) * 0x400 + (m - 0xDC00)))
    else throw .loneSurrogate
  else pure (Char.ofNat n)

/-- The character that a letter after a backslash stands for. -/
def unescapeLetter? (b : UInt8) : Option Char :=
  if b = byte '"' then some '"'
  else if b = byte '\\' then some '\\'
  else if b = byte '/' then some '/'
  else if b = byte 'b' then some '\x08'
  else if b = byte 'f' then some '\x0c'
  else if b = byte 'n' then some '\n'
  else if b = byte 'r' then some '\r'
  else if b = byte 't' then some '\t'
  else none

/-- What follows a backslash, as bytes.  Unless `paired` is set an escape by number is not looked
into beyond its digits. -/
def escape (paired : Bool) : Reader Bytes := do
  let b ← byteInString
  match unescapeLetter? b with
  | some c => pure (encodeUtf8 [c])
  | none =>
      if b = byte 'u' then
        if paired then do
          let c ← codePointEscape
          pure (encodeUtf8 [c])
        else do
          let _ ← hexEscape
          pure []
      else throw .invalidEscape

/-! ### Progress of escapes -/

theorem shrinks_byteInString : Shrinks byteInString := by
  refine Shrinks.bind shrinks_nextByte fun o => ?_
  split
  · exact Shrinks.throw _
  · exact Shrinks.pure _

/-- A byte that was there is gone. -/
theorem length_lt_of_byteInString {s rest : Input} {b : UInt8}
    (h : byteInString s = .ok (b, rest)) : rest.bytes.length < s.bytes.length := by
  obtain ⟨o, mid, hnext, hrest⟩ := bind_eq_ok h
  cases o with
  | none => cases hrest
  | some b' =>
      obtain ⟨_, rfl⟩ := Prod.mk.inj (Except.ok.inj hrest)
      exact length_lt_of_nextByte hnext

theorem shrinks_hexEscape : Shrinks hexEscape := by
  refine Shrinks.bind shrinks_byteInString fun a => ?_
  refine Shrinks.bind shrinks_byteInString fun b => ?_
  refine Shrinks.bind shrinks_byteInString fun c => ?_
  refine Shrinks.bind shrinks_byteInString fun d => ?_
  split
  · exact Shrinks.pure _
  · exact Shrinks.throw _

theorem shrinks_expectInString (c : Char) (otherwise : ReadError) :
    Shrinks (expectInString c otherwise) := by
  refine Shrinks.bind shrinks_byteInString fun b => ?_
  split
  · exact Shrinks.pure _
  · exact Shrinks.throw _

theorem shrinks_codePointEscape : Shrinks codePointEscape := by
  refine Shrinks.bind shrinks_hexEscape fun n => ?_
  split
  · exact Shrinks.throw _
  · split
    · refine Shrinks.bind (shrinks_expectInString _ _) fun _ => ?_
      refine Shrinks.bind (shrinks_expectInString _ _) fun _ => ?_
      refine Shrinks.bind shrinks_hexEscape fun m => ?_
      split
      · exact Shrinks.pure _
      · exact Shrinks.throw _
    · exact Shrinks.pure _

theorem shrinks_escape (paired : Bool) : Shrinks (escape paired) := by
  refine Shrinks.bind shrinks_byteInString fun b => ?_
  split
  · exact Shrinks.pure _
  · split
    · split
      · exact Shrinks.bind shrinks_codePointEscape fun _ => Shrinks.pure _
      · exact Shrinks.bind shrinks_hexEscape fun _ => Shrinks.pure _
    · exact Shrinks.throw _

/-! ### Strings -/

/-- The bytes of a string up to its closing quote, after the bytes of `reversed`, which are last
first. -/
def stringBytesFrom (paired : Bool) (reversed : Bytes) (s : Input) :
    Except ReadError (Bytes × Input) :=
  match _hb : byteInString s with
  | .error e => .error e
  | .ok (b, rest) =>
      if b = byte '"' then .ok (reversed.reverse, rest)
      else if b = byte '\\' then
        match _he : escape paired rest with
        | .error e => .error e
        | .ok (bytes, rest') => stringBytesFrom paired (bytes.reverse ++ reversed) rest'
      else if b < 0x20 then .error .controlCharacter
      else stringBytesFrom paired (b :: reversed) rest
termination_by s.bytes.length
decreasing_by
  · exact Nat.lt_of_le_of_lt (shrinks_escape paired _he).length_le (length_lt_of_byteInString _hb)
  · exact length_lt_of_byteInString _hb

/-- The bytes of a string up to its closing quote. -/
def stringBytes (paired : Bool) : Reader Bytes := stringBytesFrom paired []

theorem shrinks_stringBytesFrom (paired : Bool) (reversed : Bytes) :
    Shrinks (stringBytesFrom paired reversed) := by
  intro s rest bytes h
  fun_induction stringBytesFrom paired reversed s with
  | case1 => cases h
  | case2 reversed s rest' hb =>
      obtain ⟨_, rfl⟩ := Prod.mk.inj (Except.ok.inj h)
      exact shrinks_byteInString hb
  | case3 => cases h
  | case4 reversed s rest' bytes' rest'' he hb _ ih =>
      exact (ih h).trans ((shrinks_escape paired he).trans (shrinks_byteInString hb))
  | case5 => cases h
  | case6 reversed s b rest' hb _ _ _ ih => exact (ih h).trans (shrinks_byteInString hb)

theorem shrinks_stringBytes (paired : Bool) : Shrinks (stringBytes paired) :=
  shrinks_stringBytesFrom paired []

/-- **A string**, its opening quote already taken off. -/
def readString : Reader (List Char) := do
  let bytes ← stringBytes true
  match decodeUtf8? bytes with
  | some cs => pure cs
  | none => throw .invalidCodePoint

/-- Passes over a string, its opening quote already taken off. -/
def skipString : Reader Unit := do
  let _ ← stringBytes false
  pure ()

theorem shrinks_readString : Shrinks readString := by
  refine Shrinks.bind (shrinks_stringBytes _) fun bytes => ?_
  split
  · exact Shrinks.pure _
  · exact Shrinks.throw _

theorem shrinks_skipString : Shrinks skipString :=
  Shrinks.bind (shrinks_stringBytes _) fun _ => Shrinks.pure _

end StreamLexer.Json
