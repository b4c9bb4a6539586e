/-
**Decoding bytes as they arrive.**

The decoder turns the bytes of a reader into characters.  It never reads past the character it is
asked for: the lead byte fixes how many bytes follow and which values each may have, and reading
stops at the first byte that is not allowed.  That byte is held back, to start the next character,
and U+FFFD stands for the part that was cut short — one for each maximal ill-formed part.  An end
or a failure of the reader is final; the failure is kept until it is asked for.

Main definitions:

* `StreamLexer.ByteRange`, `StreamLexer.Lead` — the values allowed at a place, and what a first
  byte announces;
* `StreamLexer.Feed` — whether bytes flow, one is held back, or the data has ended;
* `StreamLexer.Utf8Decoder` — a reader and its feed, a source of characters;
* `StreamLexer.Utf8Decoder.takeFailure` — the failure that ended the data, handed over once;
* `StreamLexer.decodeUtf8` — all characters of a list of bytes.

Main results:

* `StreamLexer.Utf8Decoder.remaining_next_lt` — each character uses up bytes.
-/

import StreamLexer.Source.Basic
import StreamLexer.Source.ByteReader

set_option relaxedAutoImplicit false
set_option autoImplicit false

namespace StreamLexer

/-! ### Lead bytes -/

/-- A closed range of byte values. -/
structure ByteRange where
  low : Nat
  high : Nat
deriving DecidableEq, Repr

namespace ByteRange

/-- Whether a byte lies in the range. -/
def contains (r : ByteRange) (b : UInt8) : Bool := r.low ≤ b.toNat && b.toNat ≤ r.high

/-- The values of a continuation byte. -/
def continuation : ByteRange := ⟨0x80, 0xBF⟩

/-- The values of the second byte after `lead`: those that make the sequence a shortest form, no
surrogate and no number beyond U+10FFFF. -/
def second (lead : Nat) : ByteRange :=
  if lead = 0xE0 then ⟨0xA0, 0xBF⟩
  else if lead = 0xED then ⟨0x80, 0x9F⟩
  else if lead = 0xF0 then ⟨0x90, 0xBF⟩
  else if lead = 0xF4 then ⟨0x80, 0x8F⟩
  else continuation

end ByteRange

/-- What the first byte of a character announces. -/
inductive Lead where
  /-- The byte is a character by itself. -/
  | single
  /-- The byte carries the leading bits `bits`, and bytes from these ranges follow. -/
  | opening (bits : Nat) (owed : List ByteRange)
  /-- No well-formed character starts so. -/
  | illFormed
deriving DecidableEq, Repr

/-- The announcement of a first byte. -/
def Lead.ofByte (b : UInt8) : Lead :=
  let n := b.toNat
  if n < 0x80 then .single
  else if n < 0xC2 then .illFormed
  else if n < 0xE0 then .opening (n - 0xC0) [.continuation]
  else if n < 0xF0 then .opening (n - 0xE0) [.second n, .continuation]
  else if n < 0xF5 then .opening (n - 0xF0) [.second n, .continuation, .continuation]
  else .illFormed

/-- The character that stands for an ill-formed part. -/
def replacementCharacter : Char := '\uFFFD'

/-! ### The decoder -/

/-- What the decoder holds between characters. -/
inductive Feed where
  /-- The next byte comes from the reader. -/
  | flowing
  /-- This byte was read and starts the next character. -/
  | held (b : UInt8)
  /-- The reader will not be asked again. -/
  | ended (failure : Option ReadFailure)
deriving DecidableEq, Repr

/-- A decoder over a byte reader. -/
structure Utf8Decoder where
  reader : ByteReader
  feed : Feed := .flowing
deriving DecidableEq, Repr

namespace Utf8Decoder

/-- A decoder of what a reader delivers. -/
def ofReader (r : ByteReader) : Utf8Decoder := ⟨r, .flowing⟩

/-- A decoder over the given bytes. -/
def ofBytes (bytes : List UInt8) : Utf8Decoder := ofReader (.ofBytes bytes)

/-- The next byte: the one held back, or the next one delivered. -/
def readByte (d : Utf8Decoder) : Option UInt8 × Utf8Decoder :=
  match d.feed with
  | .held b => (some b, ⟨d.reader, .flowing⟩)
  | .ended _ => (none, d)
  | .flowing =>
      match d.reader.deliver with
      | (.byte b, r) => (some b, ⟨r, .flowing⟩)
      | (.ended failure, r) => (none, ⟨r, .ended failure⟩)

/-- Reads the bytes owed after a lead byte, adding six bits to `bits` for each. -/
def finish (bits : Nat) : List ByteRange → Utf8Decoder → Char × Utf8Decoder
  | [], d => (Char.ofNat bits, d)
  | range :: owed, d =>
      match d.readByte with
      | (none, d') => (replacementCharacter, d')
      | (some b, d') =>
          -- A byte that cannot go on here is held back, for it starts the next character.
          if range.contains b then finish (64 * bits + (b.toNat - 0x80)) owed d'
          else (replacementCharacter, ⟨d'.reader, .held b⟩)

/-- **The next character.** -/
def next (d : Utf8Decoder) : Option Char × Utf8Decoder :=
  match d.readByte with
  | (none, d') => (none, d')
  | (some b, d') =>
      match Lead.ofByte b with
      | .single => (some (Char.ofNat b.toNat), d')
      | .illFormed => (some replacementCharacter, d')
      | .opening bits owed =>
          let (c, d'') := finish bits owed d'
          (some c, d'')

/-- No character comes only where no byte does. -/
theorem readByte_of_next_none {d d' : Utf8Decoder} (h : d.next = (none, d')) :
    d.readByte = (none, d') := by
  rcases hr : d.readByte with ⟨o, d₁⟩
  cases o with
  | none => simpa [next, hr] using h
  | some b => cases hl : Lead.ofByte b <;> simp [next, hr, hl] at h

/-- **A character takes a first byte**, and after it what this byte announces. -/
theorem next_cases {d d' : Utf8Decoder} {c : Char} (h : d.next = (some c, d')) :
    ∃ b d₁, d.readByte = (some b, d₁) ∧
      ((Lead.ofByte b = .single ∧ c = Char.ofNat b.toNat ∧ d' = d₁) ∨
        (Lead.ofByte b = .illFormed ∧ c = replacementCharacter ∧ d' = d₁) ∨
        ∃ bits owed, Lead.ofByte b = .opening bits owed ∧ finish bits owed d₁ = (c, d')) := by
  rcases hr : d.readByte with ⟨o, d₁⟩
  cases o with
  | none => simp [next, hr] at h
  | some b =>
      refine ⟨b, d₁, rfl, ?_⟩
      cases hl : Lead.ofByte b with
      | single =>
          simp only [next, hr, hl, Prod.mk.injEq, Option.some.injEq] at h
          exact Or.inl ⟨rfl, h.1.symm, h.2.symm⟩
      | illFormed =>
          simp only [next, hr, hl, Prod.mk.injEq, Option.some.injEq] at h
          exact Or.inr (Or.inl ⟨rfl, h.1.symm, h.2.symm⟩)
      | opening bits owed =>
          simp only [next, hr, hl, Prod.mk.injEq, Option.some.injEq] at h
          exact Or.inr (Or.inr ⟨bits, owed, rfl, Prod.ext h.1 h.2⟩)

/-- The failure that ended the data, if there was one and it has not been taken before. -/
def takeFailure (d : Utf8Decoder) : Option ReadFailure × Utf8Decoder :=
  match d.feed with
  | .ended failure => (failure, ⟨d.reader, .ended none⟩)
  | _ => (none, d)

/-! ### Progress -/

/-- The answers still to come, and the byte held back. -/
def remaining (d : Utf8Decoder) : Nat :=
  d.reader.answers.length + match d.feed with
    | .held _ => 1
    | _ => 0

theorem remaining_readByte_le (d : Utf8Decoder) : d.readByte.2.remaining ≤ d.remaining := by
  obtain ⟨reader, feed⟩ := d
  cases feed with
  | held b => simp [readByte, remaining]
  | ended f => exact Nat.le_refl _
  | flowing =>
      have h := reader.length_answers_le
      cases hd : reader.deliver with
      | mk delivery r =>
          rw [hd] at h
          cases delivery <;> simpa [readByte, hd, remaining] using h

/-- A byte read has used up something, and nothing is held back after it. -/
theorem remaining_readByte_lt {d d' : Utf8Decoder} {b : UInt8} (h : d.readByte = (some b, d')) :
    d'.reader.answers.length < d.remaining ∧ d'.feed = .flowing := by
  obtain ⟨reader, feed⟩ := d
  cases feed with
  | held b =>
      obtain ⟨_, rfl⟩ := Prod.mk.inj h
      exact ⟨Nat.lt_succ_self _, rfl⟩
  | ended f => simp [readByte] at h
  | flowing =>
      cases hd : reader.deliver with
      | mk delivery r =>
          cases delivery with
          | byte b' =>
              simp only [readByte, hd, Prod.mk.injEq] at h
              obtain ⟨_, rfl⟩ := h
              exact ⟨ByteReader.length_answers_lt hd, rfl⟩
          | ended f => simp [readByte, hd] at h

theorem remaining_finish_le (owed : List ByteRange) :
    ∀ (bits : Nat) (d : Utf8Decoder), (finish bits owed d).2.remaining ≤ d.remaining := by
  induction owed with
  | nil => intro bits d; exact Nat.le_refl _
  | cons range owed ih =>
      intro bits d
      have hle := d.remaining_readByte_le
      cases hr : d.readByte with
      | mk o d' =>
          rw [hr] at hle
          cases o with
          | none => simpa [finish, hr] using hle
          | some b =>
              by_cases hc : range.contains b = true
              · simpa [finish, hr, hc] using Nat.le_trans (ih _ d') hle
              · simp only [finish, hr, hc, Bool.false_eq_true, if_false]
                exact Nat.succ_le_of_lt (remaining_readByte_lt hr).1

/-- **Each character uses up bytes.** -/
theorem remaining_next_lt {d d' : Utf8Decoder} {c : Char} (h : d.next = (some c, d')) :
    d'.remaining < d.remaining := by
  obtain ⟨b, d₁, hr, hcases⟩ := next_cases h
  obtain ⟨hlt, hflow⟩ := remaining_readByte_lt hr
  have hrem : d₁.remaining < d.remaining := by
    simpa [remaining, hflow] using hlt
  rcases hcases with ⟨_, _, rfl⟩ | ⟨_, _, rfl⟩ | ⟨bits, owed, _, hf⟩
  · exact hrem
  · exact hrem
  · have hle := remaining_finish_le owed bits d₁
    rw [hf] at hle
    exact Nat.lt_of_le_of_lt hle hrem

instance : CharSource Utf8Decoder where
  next := next
  remaining := remaining
  remaining_lt := remaining_next_lt

end Utf8Decoder

/-- All characters of a list of bytes, U+FFFD standing for each ill-formed part. -/
def decodeUtf8 (bytes : List UInt8) : List Char :=
  (CharSource.readAll (Utf8Decoder.ofBytes bytes)).1

end StreamLexer
