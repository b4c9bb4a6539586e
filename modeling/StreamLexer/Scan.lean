/-
**The scanner, one character at a time.**

Between tokens the scanner is at rest; inside a word, a number or a comment, or after a symbol, it
remembers what it has read.  One character either takes it to the next state or belongs to what
follows, and then the token is complete.  A token is complete at the end of the input as well.
Every character is accepted at rest, so no token is empty, and after a symbol none is accepted, so
a symbol is one character.

Main definitions:

* `StreamLexer.Scan` — what the scanner is in the middle of;
* `StreamLexer.Scan.step` — **the transition**: the state after a character, or none if the
  character belongs to what follows;
* `StreamLexer.Scan.token` — the token that is complete when nothing more belongs to it.
-/

import StreamLexer.Comment
import StreamLexer.Token.Basic

set_option relaxedAutoImplicit false
set_option autoImplicit false

namespace StreamLexer

open CharClass

/-- What the scanner is in the middle of.  Words and numbers hold their characters last first. -/
inductive Scan where
  /-- Between tokens. -/
  | start
  | word (reversed : List Char)
  | number (reversed : List Char)
  /-- After a slash, which may be a symbol or open a comment. -/
  | slash
  /-- After a symbol other than a slash. -/
  | symbol (c : Char)
  | comment (k : Comment)
deriving DecidableEq, Repr

namespace Scan

/-- The state that a character leads to from rest. -/
def enter (c : Char) : Scan :=
  if isBlank c then start
  else if isWordStart c then word [c]
  else if isNumberPart c then number [c]
  else if c = '/' then slash
  else symbol c

/-- **The state after one more character**, or `none` if the character belongs to what follows. -/
def step : Scan → Char → Option Scan
  | start, c => some (enter c)
  | word cs, c => if isWordPart c then some (word (c :: cs)) else none
  | number cs, c => if isNumberPart c then some (number (c :: cs)) else none
  | slash, c =>
      if c = '/' then some (comment .line)
      else if c = '*' then some (comment .openBlock)
      else none
  | symbol _, _ => none
  | comment k, c =>
      match k.step c with
      | some k' => some (comment k')
      | none => some start

/-- The token that has been read.  At rest and inside a comment there is none left to read. -/
def token : Scan → Token
  | start => .endOfInput
  | word cs => .ofWord cs.reverse
  | number cs => .ofNumber cs.reverse
  | slash => .symbol '/'
  | symbol c => .symbol c
  | comment _ => .endOfInput

end Scan

end StreamLexer
