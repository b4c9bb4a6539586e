/-
**What to write.**

The configuration says in which form tokens are written, whether the end of the input is written
too, and how many tokens are written at most.  The limit is a machine word.

Main definitions:

* `StreamLexer.OutputFormat` — running text or JSON;
* `StreamLexer.OutputFormat.parse?` — the format named on a command line;
* `StreamLexer.Config` — format, final line, limit;
* `StreamLexer.Config.json` — a configuration as a JSON object.
-/

import StreamLexer.Json.Quoted

set_option relaxedAutoImplicit false
set_option autoImplicit false

namespace StreamLexer

/-- The form in which tokens are written. -/
inductive OutputFormat where
  | text
  | json
deriving DecidableEq, Repr

namespace OutputFormat

/-- The name of a format. -/
def name : OutputFormat → String
  | text => "text"
  | json => "json"

/-- The format with the given name.  Case matters. -/
def ofName? : String → Option OutputFormat
  | "text" => some text
  | "json" => some json
  | _ => none

/-- The format a user asks for, by name; `ignoreCase` lets ASCII letters of either case stand for
each other. -/
def parse? (ignoreCase : Bool) (s : String) : Option OutputFormat :=
  ofName? (if ignoreCase then String.ofList (s.toList.map Char.toLower) else s)

end OutputFormat

/-- How tokens are written. -/
structure Config where
  format : OutputFormat := .text
  /-- Whether the end of the input gets a line of its own. -/
  emitEndOfInput : Bool := true
  /-- The number of tokens after which writing stops. -/
  maxTokens : Option UInt64 := none
deriving DecidableEq, Repr

namespace Config

/-- Whether the limit allows no token beyond `count`. -/
def limitReached (config : Config) (count : Nat) : Bool :=
  match config.maxTokens with
  | none => false
  | some limit => limit.toNat ≤ count

/-- A truth value as JSON. -/
def flagJson (b : Bool) : String := if b then "true" else "false"

/-- A limit as JSON. -/
def limitJson : Option UInt64 → String
  | none => "null"
  | some limit => String.ofList (Nat.toDigits 10 limit.toNat)

/-- **A configuration as a JSON object**, its three members in order. -/
def json (config : Config) : String :=
  "\x7b\"format\":" ++ Json.quote config.format.name ++
    ",\"emit_end_of_input\":" ++ flagJson config.emitEndOfInput ++
    ",\"max_tokens\":" ++ limitJson config.maxTokens ++ "\x7d"

end Config

end StreamLexer
