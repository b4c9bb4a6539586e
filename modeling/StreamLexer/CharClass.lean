/-
**The character classes of the lexical grammar.**

Four classes decide how a character is scanned, and all four hold ASCII characters only: every
other character is a symbol by itself.

Main definitions:

* `StreamLexer.CharClass.isBlank` — the six blanks between tokens;
* `StreamLexer.CharClass.isWordStart`, `StreamLexer.CharClass.isWordPart` — the first and the
  later characters of a word;
* `StreamLexer.CharClass.isNumberPart` — the characters of a number.
-/

set_option relaxedAutoImplicit false
set_option autoImplicit false

namespace StreamLexer.CharClass

/-- The blanks: space, tab, line feed, carriage return, form feed and vertical tab. -/
def isBlank (c : Char) : Bool :=
  c = ' ' || c = '\t' || c = '\n' || c = '\r' || c = '\x0c' || c = '\x0b'

/-- A word starts with an ASCII letter. -/
def isWordStart (c : Char) : Bool := c.isAlpha

/-- A word goes on with ASCII letters and digits. -/
def isWordPart (c : Char) : Bool := c.isAlphanum

/-- A number is made of ASCII digits and points, in any arrangement. -/
def isNumberPart (c : Char) : Bool := c.isDigit || c = '.'

/-- The two characters that end a line. -/
def isLineEnd (c : Char) : Bool := c = '\n' || c = '\r'

end StreamLexer.CharClass
