/-
**Strings of a data line.**

Between the quotes of a JSON string the quote, the backslash and the characters below U+0020 are
escaped, seven of them by a letter and the rest by four hexadecimal digits.  Every other character
stands for itself.

Main definitions:

* `StreamLexer.Json.escapeChar` — one character of a string;
* `StreamLexer.Json.quote` — a text as a JSON string.
-/

set_option relaxedAutoImplicit false
set_option autoImplicit false

namespace StreamLexer.Json

/-- The letter after the backslash for a character that has one. -/
def escapeLetter? : Char → Option Char
  | '"' => some '"'
  | '\\' => some '\\'
  | '\x08' => some 'b'
  | '\t' => some 't'
  | '\n' => some 'n'
  | '\x0c' => some 'f'
  | '\r' => some 'r'
  | _ => none

/-- A hexadecimal digit. -/
def hexDigit (n : Nat) : Char := if n < 10 then Char.ofNat (48 + n) else Char.ofNat (87 + n)

/-- One character of a string. -/
def escapeChar (c : Char) : List Char :=
  match escapeLetter? c with
  | some l => ['\\', l]
  | none =>
      if c.toNat < 0x20 then
        ['\\', 'u', '0', '0', hexDigit (c.toNat / 16), hexDigit (c.toNat % 16)]
      else [c]

/-- A text as a JSON string. -/
def quote (s : String) : String := String.ofList ('"' :: s.toList.flatMap escapeChar ++ ['"'])

end StreamLexer.Json
