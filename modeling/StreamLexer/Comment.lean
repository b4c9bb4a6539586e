/-
**Comments.**

A comment is recognised by its opening, two characters that the scanner has already consumed, and
from then on by its own closing rule: a line comment ends with the first line end, a block comment
with the first star that a slash follows.  Block comments do not nest, and the star of the opening
is no part of a closing.

Main definitions:

* `StreamLexer.Comment` — how far a comment has been read;
* `StreamLexer.Comment.step` — reading one more character;
* `StreamLexer.Comment.skip` — reading a source to the end of the comment, and one character
  beyond.
-/

import StreamLexer.CharClass
import StreamLexer.Source.Basic

set_option relaxedAutoImplicit false
set_option autoImplicit false

namespace StreamLexer

/-- A comment that has been opened and not yet closed. -/
inductive Comment where
  | line
  /-- A block comment; `afterStar` tells whether the character just read is a star. -/
  | block (afterStar : Bool)
deriving DecidableEq, Repr

namespace Comment

/-- A block comment just opened. -/
def openBlock : Comment := block false

/-- The comment after one more character, or `none` if that character closes it. -/
def step : Comment → Char → Option Comment
  | line, c => if CharClass.isLineEnd c then none else some line
  | block afterStar, c => if afterStar && c = '/' then none else some (block (c = '*'))

variable {σ : Type} [CharSource σ]

/-- Reads a source to the end of the comment, and returns the character after it.  At the end of
the source there is none. -/
def skip (k : Comment) (s : σ) : Option Char × σ :=
  match _h : CharSource.next s with
  | (none, s') => (none, s')
  | (some c, s') =>
      match k.step c with
      | none => CharSource.next s'
      | some k' => skip k' s'
termination_by CharSource.remaining s
decreasing_by exact CharSource.remaining_lt _h

theorem skip_of_none {k : Comment} {s s' : σ} (h : CharSource.next s = (none, s')) :
    k.skip s = (none, s') := by
  rw [skip]
  split
  · next heq => rw [h] at heq; rw [(Prod.mk.inj heq).2]
  · next heq => rw [h] at heq; simp at heq

theorem skip_of_some {k : Comment} {s s' : σ} {c : Char} (h : CharSource.next s = (some c, s')) :
    k.skip s = match k.step c with
      | none => CharSource.next s'
      | some k' => skip k' s' := by
  rw [skip]
  split
  · next heq => rw [h] at heq; simp at heq
  · next heq =>
      rw [h] at heq
      obtain ⟨hc, rfl⟩ := Prod.mk.inj heq
      rw [Option.some.inj hc]

end Comment

end StreamLexer
