/-
**How tokens are written.**

A token is written on a line of its own, in running text or as a JSON object.  The text names the
kind of the token and shows its value between backquotes; the object has the kind and, except at
the end of the input, the value.

Main definitions:

* `StreamLexer.Token.text` — a token in running text;
* `StreamLexer.Token.json` — a token as a JSON object.
-/

import StreamLexer.Decimal.Layout
import StreamLexer.Json.Quoted
import StreamLexer.Text.Escape
import StreamLexer.Token.Basic

set_option relaxedAutoImplicit false
set_option autoImplicit false

namespace StreamLexer.Token

/-- A value between backquotes after the name of its kind. -/
def labelled (label value : String) : String := label ++ " `" ++ value ++ "`"

/-- A symbol as it is shown: both kinds of quote take a backslash. -/
def symbolText (c : Char) : String := String.ofList (escapeChar ['\'', '"'] c)

/-- **A token in running text.** -/
def text : Token → String
  | endOfInput => "end of input"
  | keyword k => labelled "keyword" k.spelling
  | primitiveType t => labelled "primitive type" t.spelling
  | identifier name => labelled "identifier" name
  | number x => "number " ++ x.text
  | symbol c => labelled "symbol" (symbolText c)

instance : ToString Token := ⟨text⟩

/-- A JSON object with a kind and a value, the value already written as JSON. -/
def jsonMembers (kind value : String) : String :=
  "\x7b\"kind\":" ++ Json.quote kind ++ ",\"value\":" ++ value ++ "\x7d"

/-- A number as a JSON value.  What is no finite number is a string. -/
def numberJson (x : Binary64) : String := if x.isFinite then x.dataText else Json.quote x.text

/-- **A token as a JSON object.** -/
def json : Token → String
  | endOfInput => "\x7b\"kind\":" ++ Json.quote "end_of_input" ++ "\x7d"
  | keyword k => jsonMembers "keyword" (Json.quote k.spelling)
  | primitiveType t => jsonMembers "primitive_type" (Json.quote t.spelling)
  | identifier name => jsonMembers "identifier" (Json.quote name)
  | number x => jsonMembers "number" (numberJson x)
  | symbol c => jsonMembers "symbol" (Json.quote (String.singleton c))

end StreamLexer.Token
