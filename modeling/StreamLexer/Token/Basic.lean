/-
**Tokens.**

Blanks and comments leave no token.  What is left of a text are words, numbers and symbols, and a
word is a reserved word, the name of a primitive type, or else an identifier.  The end of the
input is a token too, so that asking for a token always has an answer.

Main definitions:

* `StreamLexer.Token` — the tokens;
* `StreamLexer.Token.ofWord`, `StreamLexer.Token.ofNumber` — the tokens of a word and of a number;
* `StreamLexer.Token.equal` — equality of tokens, numbers compared as numbers.
-/

import StreamLexer.Word.Keyword
import StreamLexer.Word.PrimitiveType
import StreamLexer.Decimal.Numeral

set_option relaxedAutoImplicit false
set_option autoImplicit false

namespace StreamLexer

/-- A token. -/
inductive Token where
  | endOfInput
  | keyword (word : Keyword)
  | primitiveType (type : PrimitiveType)
  | identifier (name : String)
  | number (value : Binary64)
  | symbol (c : Char)
deriving DecidableEq, Repr

namespace Token

/-- Whether a token is the end of the input. -/
def isEndOfInput : Token → Bool
  | endOfInput => true
  | _ => false

/-- The token of a word: the reserved words come first, then the primitive types. -/
def ofWord (cs : List Char) : Token :=
  let word := String.ofList cs
  match Keyword.lookup word with
  | some k => keyword k
  | none =>
      match PrimitiveType.lookup word with
      | some t => primitiveType t
      | none => identifier word

/-- The token of a run of digits and points. -/
def ofNumber (cs : List Char) : Token := number (numberValue cs)

/-- Equality of tokens.  Numbers are equal as numbers: the two zeros agree, and a value that is not
a number differs from every token, itself included. -/
def equal : Token → Token → Bool
  | number x, number y => x.equal y
  | a, b => a == b

end Token

end StreamLexer
