/-
**Sinks with limited room.**

A sink takes bytes until its room is used up.  A write that does not fit leaves the part that fits
and is refused, whether the sink reports an error or merely stops taking bytes.  Writing nothing is
never refused.

Main definitions:

* `StreamLexer.Refusal` — how a full sink turns bytes away;
* `StreamLexer.Sink` — the bytes taken so far, the room in total, and the refusal at its end;
* `StreamLexer.Sink.write` — **writing**: what fits is taken, and the rest is refused.
-/

set_option relaxedAutoImplicit false
set_option autoImplicit false

namespace StreamLexer

/-- How a full sink turns bytes away. -/
inductive Refusal where
  /-- It fails with this message. -/
  | failing (message : String)
  /-- It takes no more bytes. -/
  | stalling
deriving DecidableEq, Repr

/-- What is reported of a refused write. -/
def Refusal.message : Refusal → String
  | failing message => message
  | stalling => "failed to write whole buffer"

/-- A sink for bytes. -/
structure Sink where
  /-- The bytes taken so far. -/
  accepted : Array UInt8 := #[]
  /-- The number of bytes it takes in all; without a bound if there is none. -/
  capacity : Option Nat := none
  /-- What happens to the bytes beyond that. -/
  refusal : Refusal := .stalling
deriving DecidableEq, Repr

namespace Sink

/-- The number of the given bytes that fit. -/
def fitting (s : Sink) (bytes : List UInt8) : Nat :=
  match s.capacity with
  | none => bytes.length
  | some n => min (n - s.accepted.size) bytes.length

/-- **Writes bytes.**  Those that fit are taken; if that is not all of them the write is refused. -/
def write (s : Sink) (bytes : List UInt8) : Option Refusal × Sink :=
  let n := s.fitting bytes
  (if n < bytes.length then some s.refusal else none,
    { s with accepted := s.accepted ++ bytes.take n })

end Sink

end StreamLexer
