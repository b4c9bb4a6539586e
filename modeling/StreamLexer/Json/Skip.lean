/-
**Passing over a value.**

The value of an unknown member is read for its form only.  Lists and objects may nest to any depth,
so the ones still open are kept in a list, innermost first, and the place in the innermost says
what may come next: a value, the closing right after an opening, or what follows a value.

Main definitions:

* `StreamLexer.Json.Container`, `StreamLexer.Json.Place` — what is open, and the place in it;
* `StreamLexer.Json.skipValue` — **passing over a value**.

Main results:

* `StreamLexer.Json.shrinks_skipValue` — the rest is no longer than the text.
-/

import StreamLexer.Json.Number
import StreamLexer.Json.Text

set_option relaxedAutoImplicit false
set_option autoImplicit false

namespace StreamLexer.Json

/-- The values that hold other values. -/
inductive Container where
  | list
  | object
deriving DecidableEq, Repr

namespace Container

/-- The byte that closes a container. -/
def close : Container → UInt8
  | list => byte ']'
  | object => byte '\x7d'

/-- The cause if the text ends where a container could go on. -/
def endError : Container → ReadError
  | list => .endInList
  | object => .endInObject

/-- The cause if something else than a comma or the closing follows a value. -/
def separatorError : Container → ReadError
  | list => .expectedListCommaOrEnd
  | object => .expectedObjectCommaOrEnd

end Container

/-- A place in a text that is passed over. -/
inductive Place where
  /-- A value has to come. -/
  | value
  /-- This container was opened just before. -/
  | opened (c : Container)
  /-- A value has just ended. -/
  | after
deriving DecidableEq, Repr

/-- An opened container may be looked into without taking a byte. -/
def Place.rank : Place → Nat
  | opened _ => 1
  | _ => 0

/-- The colon between a key and its value. -/
def colon : Reader Unit := do
  match ← nextSolid with
  | none => throw .endInObject
  | some b => if b = byte ':' then pure () else throw .expectedColon

/-- What stands before a value in a container: in an object, a key and a colon. -/
def skipKey : Container → Reader Unit
  | .list => pure ()
  | .object => do
      match ← nextSolid with
      | none => throw .endInObject
      | some b =>
          if b = byte '"' then do
            skipString
            colon
          else throw .keyNotString

/-- Passes over a value that holds no others, its first byte already taken off. -/
def skipScalar (first : UInt8) : Reader Unit :=
  if first = byte 'n' then literal ['u', 'l', 'l']
  else if first = byte 't' then literal ['r', 'u', 'e']
  else if first = byte 'f' then literal ['a', 'l', 's', 'e']
  else if first = byte '"' then skipString
  else if first = byte '-' || isDigit first then skipNumber first
  else throw .expectedValue

/-- The container that a byte opens. -/
def opening? (b : UInt8) : Option Container :=
  if b = byte '[' then some .list
  else if b = byte '\x7b' then some .object
  else none

theorem shrinks_colon : Shrinks colon := by
  refine Shrinks.bind shrinks_nextSolid fun o => ?_
  split
  · exact Shrinks.throw _
  · split
    · exact Shrinks.pure _
    · exact Shrinks.throw _

theorem shrinks_skipKey (c : Container) : Shrinks (skipKey c) := by
  cases c with
  | list => exact Shrinks.pure _
  | object =>
      refine Shrinks.bind shrinks_nextSolid fun o => ?_
      split
      · exact Shrinks.throw _
      · split
        · exact Shrinks.bind shrinks_skipString fun _ => shrinks_colon
        · exact Shrinks.throw _

theorem shrinks_skipScalar (first : UInt8) : Shrinks (skipScalar first) := by
  unfold skipScalar
  split
  · exact shrinks_literal _
  · split
    · exact shrinks_literal _
    · split
      · exact shrinks_literal _
      · split
        · exact shrinks_skipString
        · split
          · exact shrinks_skipNumber _
          · exact Shrinks.throw _

/-- From an opened container one goes on to another place, with no longer a text. -/
theorem lex_opened {c : Container} {place : Place} {m n : Nat} (hle : m ≤ n)
    (hplace : place.rank = 0) :
    Prod.Lex (· < ·) (· < ·) (m, place.rank) (n, (Place.opened c).rank) := by
  rcases Nat.lt_or_eq_of_le hle with hlt | rfl
  · exact Prod.Lex.left _ _ hlt
  · refine Prod.Lex.right _ ?_
    rw [hplace]
    exact Nat.zero_lt_one

/-- Passes over the rest of a value from a place in it; `outer` are the containers still open
around the place, innermost first. -/
def skipFrom (place : Place) (outer : List Container) (s : Input) :
    Except ReadError (Unit × Input) :=
  match place with
  | .value =>
      match _hs : nextSolid s with
      | .error e => .error e
      | .ok (none, _) => .error .endInValue
      | .ok (some b, rest) =>
          match opening? b with
          | some c => skipFrom (.opened c) outer rest
          | none =>
              match _hv : skipScalar b rest with
              | .error e => .error e
              | .ok (_, rest') => skipFrom .after outer rest'
  | .opened c =>
      match _hs : peekSolid s with
      | .error e => .error e
      | .ok (none, _) => .error c.endError
      | .ok (some b, rest) =>
          if b = c.close then
            match _hc : nextByte rest with
            | .error e => .error e
            | .ok (_, rest') => skipFrom .after outer rest'
          else
            match _hk : skipKey c rest with
            | .error e => .error e
            | .ok (_, rest') => skipFrom .value (c :: outer) rest'
  | .after =>
      match outer with
      -- Nothing is open around the value that has just ended, so it was the whole value.
      | [] => .ok ((), s)
      | c :: outer' =>
          match _hs : nextSolid s with
          | .error e => .error e
          | .ok (none, _) => .error c.endError
          | .ok (some b, rest) =>
              if b = c.close then skipFrom .after outer' rest
              else if b = byte ',' then
                match _hk : skipKey c rest with
                | .error e => .error e
                | .ok (_, rest') => skipFrom .value (c :: outer') rest'
              else .error c.separatorError
termination_by (s.bytes.length, place.rank)
decreasing_by
  · exact Prod.Lex.left _ _ (length_lt_of_nextSolid _hs)
  · exact Prod.Lex.left _ _
      (Nat.lt_of_le_of_lt (shrinks_skipScalar b _hv).length_le (length_lt_of_nextSolid _hs))
  · exact lex_opened ((shrinks_nextByte _hc).trans (shrinks_peekSolid _hs)).length_le rfl
  · exact lex_opened ((shrinks_skipKey c _hk).trans (shrinks_peekSolid _hs)).length_le rfl
  · exact Prod.Lex.left _ _ (length_lt_of_nextSolid _hs)
  · exact Prod.Lex.left _ _
      (Nat.lt_of_le_of_lt (shrinks_skipKey c _hk).length_le (length_lt_of_nextSolid _hs))

/-- **Passes over a value** of any kind and depth. -/
def skipValue : Reader Unit := skipFrom .value []

theorem shrinks_skipFrom (place : Place) (outer : List Container) :
    Shrinks (skipFrom place outer) := by
  intro s rest u h
  fun_induction skipFrom place outer s with
  | case1 => cases h
  | case2 => cases h
  | case3 outer s b t hs c hc ih => exact (ih h).trans (shrinks_nextSolid hs)
  | case4 => cases h
  | case5 outer s b t hs hc _ rest' hv ih =>
      exact (ih h).trans ((shrinks_skipScalar b hv).trans (shrinks_nextSolid hs))
  | case6 => cases h
  | case7 => cases h
  | case8 => cases h
  | case9 outer s c t _ rest' hc hs ih =>
      exact (ih h).trans ((shrinks_nextByte hc).trans (shrinks_peekSolid hs))
  | case10 => cases h
  | case11 outer s c b t hs hb _ rest' hk ih =>
      exact (ih h).trans ((shrinks_skipKey c hk).trans (shrinks_peekSolid hs))
  | case12 s =>
      obtain ⟨_, rfl⟩ := Prod.mk.inj (Except.ok.inj h)
      exact .refl s
  | case13 => cases h
  | case14 => cases h
  | case15 s c outer' t hs ih => exact (ih h).trans (shrinks_nextSolid hs)
  | case16 => cases h
  | case17 s c outer' t _ rest' hk hs _ ih =>
      exact (ih h).trans ((shrinks_skipKey c hk).trans (shrinks_nextSolid hs))
  | case18 => cases h

theorem shrinks_skipValue : Shrinks skipValue := shrinks_skipFrom .value []

end StreamLexer.Json
