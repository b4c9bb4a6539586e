/-
**Why a JSON text is not read.**

A text can end too early, break the grammar, or be well formed and hold something else than what is
wanted.  The causes are told apart here; their wording is in one place, and so is their division
into four categories.

Main definitions:

* `StreamLexer.Json.Found` — what stands where something else is wanted;
* `StreamLexer.Json.ReadError` — the causes, with their `message` and `category`.
-/

import StreamLexer.Decimal.Layout
import StreamLexer.Text.Escape

set_option relaxedAutoImplicit false
set_option autoImplicit false

namespace StreamLexer.Json

/-- What stands in the text where another kind of value is wanted. -/
inductive Found where
  | null
  | boolean (b : Bool)
  | integer (n : Int)
  | float (x : Binary64)
  | string (cs : List Char)
  | sequence
  | map
deriving DecidableEq, Repr

/-- How a message names what was found. -/
def Found.description : Found → String
  | null => "null"
  | boolean b => "boolean `" ++ toString b ++ "`"
  | integer n => "integer `" ++ toString n ++ "`"
  | float x => "floating point `" ++ x.dataText ++ "`"
  | string cs => "string " ++ quoteText cs
  | sequence => "sequence"
  | map => "map"

/-- The four kinds of cause. -/
inductive Category where
  /-- The text breaks the grammar. -/
  | grammar
  /-- The text holds something else than what is wanted. -/
  | data
  /-- The text ends too early. -/
  | endOfText
  /-- The text could not be got at. -/
  | access
deriving DecidableEq, Repr

/-- Why a text is not read. -/
inductive ReadError where
  | endInValue
  | endInString
  | endInList
  | endInObject
  | expectedColon
  | expectedListCommaOrEnd
  | expectedObjectCommaOrEnd
  | expectedIdent
  | expectedValue
  | invalidEscape
  | invalidNumber
  | numberOutOfRange
  | invalidCodePoint
  | controlCharacter
  | keyNotString
  | loneSurrogate
  | unexpectedEndOfEscape
  | trailingComma
  | trailingCharacters
  /-- Another kind of value is wanted. -/
  | invalidType (found : Found) (expected : String)
  /-- The kind is right and the value is not. -/
  | invalidValue (found : Found) (expected : String)
  | unknownVariant (name : String) (expected : String)
  | duplicateField (name : String)
  /-- Reading the bytes of the text failed. -/
  | unreadable (message : String)
deriving DecidableEq, Repr

namespace ReadError

/-- **The wording of a cause.** -/
def message : ReadError → String
  | endInValue => "EOF while parsing a value"
  | endInString => "EOF while parsing a string"
  | endInList => "EOF while parsing a list"
  | endInObject => "EOF while parsing an object"
  | expectedColon => "expected `:`"
  | expectedListCommaOrEnd => "expected `,` or `]`"
  | expectedObjectCommaOrEnd => "expected `,` or `\x7d`"
  | expectedIdent => "expected ident"
  | expectedValue => "expected value"
  | invalidEscape => "invalid escape"
  | invalidNumber => "invalid number"
  | numberOutOfRange => "number out of range"
  | invalidCodePoint => "invalid unicode code point"
  | controlCharacter => "control character (\\u0000-\\u001F) found while parsing a string"
  | keyNotString => "key must be a string"
  | loneSurrogate => "lone leading surrogate in hex escape"
  | unexpectedEndOfEscape => "unexpected end of hex escape"
  | trailingComma => "trailing comma"
  | trailingCharacters => "trailing characters"
  | invalidType found expected =>
      "invalid type: " ++ found.description ++ ", expected " ++ expected
  | invalidValue found expected =>
      "invalid value: " ++ found.description ++ ", expected " ++ expected
  | unknownVariant name expected => "unknown variant `" ++ name ++ "`, expected " ++ expected
  | duplicateField name => "duplicate field `" ++ name ++ "`"
  | unreadable message => message

/-- The kind of a cause. -/
def category : ReadError → Category
  | endInValue | endInString | endInList | endInObject => .endOfText
  | invalidType .. | invalidValue .. | unknownVariant .. | duplicateField .. => .data
  | unreadable .. => .access
  | _ => .grammar

end ReadError

end StreamLexer.Json
