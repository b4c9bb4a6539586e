/-
**Escapes for reading by people.**

A character in a message is written so that it can be told from every other: a few by a letter
after a backslash, the backslash and the quotes behind a backslash, and whatever has no picture by
its code point in braces.  Which quotes need the backslash depends on where the character stands.

Main definitions:

* `StreamLexer.escapeChar` — one character, given the quotes that need a backslash;
* `StreamLexer.quoteText` — a text between double quotes.
-/

import StreamLexer.Unicode.Hidden

set_option relaxedAutoImplicit false
set_option autoImplicit false

namespace StreamLexer

/-- The letter after the backslash for a character that has one. -/
def escapeLetter? : Char → Option Char
  | '\x00' => some '0'
  | '\t' => some 't'
  | '\r' => some 'r'
  | '\n' => some 'n'
  | _ => none

/-- A code point between braces, in hexadecimal without padding. -/
def escapeCodePoint (c : Char) : List Char :=
  '\\' :: 'u' :: '\x7b' :: Nat.toDigits 16 c.toNat ++ ['\x7d']

/-- A character as it is shown, where the characters of `quotes` are quotes. -/
def escapeChar (quotes : List Char) (c : Char) : List Char :=
  match escapeLetter? c with
  | some l => ['\\', l]
  | none =>
      if c = '\\' || quotes.contains c then ['\\', c]
      else if Unicode.isHidden c then escapeCodePoint c
      else [c]

/-- A text between double quotes; single quotes stand for themselves. -/
def quoteText (cs : List Char) : String :=
  String.ofList ('"' :: cs.flatMap (escapeChar ['"']) ++ ['"'])

end StreamLexer
