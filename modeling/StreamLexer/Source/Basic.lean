/-
**Sources of characters.**

A source is asked for one character at a time and answers with a character or with none.  An answer
of none need not be final: a source may have more to offer when it is asked again.  What every
source must have is a measure that drops with each character it gives, so that whoever reads on
until none comes back will stop.  The measure says nothing about what comes after that none.

Main definitions:

* `StreamLexer.CharSource` — the operation `next` and its measure;
* `StreamLexer.CharSource.readAll` — the characters up to the first answer of none;
* `StreamLexer.TextCursor` — a text, read from the front;
* `StreamLexer.ScriptedSource` — a list of answers given one by one, counting the requests.
-/

set_option relaxedAutoImplicit false
set_option autoImplicit false

namespace StreamLexer

/-- A source of characters. -/
class CharSource (σ : Type) where
  /-- The answer to a request, and the source after it. -/
  next : σ → Option Char × σ
  /-- A bound on the number of characters that come one after another, before the next none. -/
  remaining : σ → Nat
  remaining_lt : ∀ {s s' : σ} {c : Char}, next s = (some c, s') → remaining s' < remaining s

namespace CharSource

variable {σ : Type} [CharSource σ]

/-- The characters up to the first answer of none, and the source after that answer. -/
def readAll (s : σ) : List Char × σ :=
  match _h : next s with
  | (none, s') => ([], s')
  | (some c, s') =>
      let (cs, t) := readAll s'
      (c :: cs, t)
termination_by remaining s
decreasing_by exact remaining_lt _h

theorem readAll_of_none {s s' : σ} (h : next s = (none, s')) : readAll s = ([], s') := by
  rw [readAll]
  split
  · next heq => rw [h] at heq; rw [(Prod.mk.inj heq).2]
  · next heq => rw [h] at heq; simp at heq

theorem readAll_of_some {s s' : σ} {c : Char} (h : next s = (some c, s')) :
    readAll s = (c :: (readAll s').1, (readAll s').2) := by
  rw [readAll]
  split
  · next heq => rw [h] at heq; simp at heq
  · next heq =>
      rw [h] at heq
      obtain ⟨hc, rfl⟩ := Prod.mk.inj heq
      rw [Option.some.inj hc]

end CharSource

/-! ### A text -/

/-- A position in a text: what is still unread. -/
structure TextCursor where
  unread : List Char
deriving DecidableEq, Repr

namespace TextCursor

/-- The start of a text. -/
def ofString (s : String) : TextCursor := ⟨s.toList⟩

/-- The next character of the text. -/
def next (s : TextCursor) : Option Char × TextCursor :=
  match s.unread with
  | [] => (none, s)
  | c :: cs => (some c, ⟨cs⟩)

instance : CharSource TextCursor where
  next := next
  remaining s := s.unread.length
  remaining_lt := by
    intro s s' c h
    obtain ⟨unread⟩ := s
    cases unread with
    | nil => simp [next] at h
    | cons a cs =>
        obtain ⟨_, rfl⟩ := Prod.mk.inj h
        exact Nat.lt_succ_self _

theorem readAll_fst (s : TextCursor) : (CharSource.readAll s).1 = s.unread := by
  obtain ⟨unread⟩ := s
  induction unread with
  | nil =>
      have hnext : CharSource.next (⟨[]⟩ : TextCursor) = (none, ⟨[]⟩) := rfl
      rw [CharSource.readAll_of_none hnext]
  | cons c cs ih =>
      have hnext : CharSource.next (⟨c :: cs⟩ : TextCursor) = (some c, ⟨cs⟩) := rfl
      rw [CharSource.readAll_of_some hnext, ih]

end TextCursor

/-! ### A script of answers -/

/-- A list of answers, given one by one; after the last, every answer is none. -/
structure ScriptedSource where
  answers : List (Option Char)
  /-- The number of requests so far. -/
  requests : Nat := 0
deriving DecidableEq, Repr

namespace ScriptedSource

/-- The next answer of the script. -/
def next (s : ScriptedSource) : Option Char × ScriptedSource :=
  match s.answers with
  | [] => (none, ⟨[], s.requests + 1⟩)
  | a :: answers => (a, ⟨answers, s.requests + 1⟩)

instance : CharSource ScriptedSource where
  next := next
  remaining s := s.answers.length
  remaining_lt := by
    intro s s' c h
    obtain ⟨answers, requests⟩ := s
    cases answers with
    | nil => simp [next] at h
    | cons a as =>
        obtain ⟨_, rfl⟩ := Prod.mk.inj h
        exact Nat.lt_succ_self _

end ScriptedSource

end StreamLexer
