/-
**Failures.**

Making tokens never fails.  What can fail is what surrounds it: getting at bytes or writing them,
reading a configuration, and, for those who build on the library, a step of their own.

Main definitions:

* `StreamLexer.Failure` — the causes;
* `StreamLexer.Failure.message` — **their wording**.
-/

import StreamLexer.Json.ReadError
import StreamLexer.Output.Sink
import StreamLexer.Source.ByteReader

set_option relaxedAutoImplicit false
set_option autoImplicit false

namespace StreamLexer

/-- Why something failed. -/
inductive Failure where
  /-- Bytes could not be read or written. -/
  | io (message : String)
  /-- A configuration could not be read. -/
  | config (cause : Json.ReadError)
  /-- A step inside a program went wrong. -/
  | internal (message : String)
deriving DecidableEq, Repr

namespace Failure

/-- **The wording of a failure.** -/
def message : Failure → String
  | io message => "IO error: " ++ message
  | config cause => "Config error: " ++ cause.message
  | internal message => "Internal error: " ++ message

/-- The failure of a read. -/
def ofRead (failure : ReadFailure) : Failure := io failure.message

/-- The failure of a write. -/
def ofRefusal (refusal : Refusal) : Failure := io refusal.message

end Failure

end StreamLexer
