/-
**When a decoder finds the end.**

A decoder asks for a byte more than its characters have only where the bytes end in the middle of a
character: there the end of the data is found with the character that is cut short, and everywhere
else by the request for a character after the last.  So whether a tokenizer has come to the end of
the data can be told from the characters that it has taken, and no count of requests is needed.

Main definitions:

* `StreamLexer.Utf8Decoder.HasEnded` — the end of the data has been found;
* `StreamLexer.EndsMidway` — bytes that end in the middle of a character;
* `StreamLexer.Tokenizer.Reaches` — the place of a tokenizer among the units of its bytes.

Main results:

* `StreamLexer.Utf8Decoder.flowing_next_iff` — **bytes flow on after a character** unless it is cut
  short;
* `StreamLexer.Utf8Decoder.hasEnded_next_iff` — a character is given at the end of the data when it
  is cut short by it;
* `StreamLexer.Tracks.hasEnded_iff` — the requests that were made tell the same;
* `StreamLexer.Tokenizer.Reaches.of_advances` — **the end is found after the last character, or with
  it if it is cut short**.
-/

import StreamLexer.Proofs.DecodedUnits
import StreamLexer.Proofs.EndOfInput
import StreamLexer.Proofs.ReaderSession

set_option relaxedAutoImplicit false
set_option autoImplicit false

namespace StreamLexer

namespace Utf8Decoder

/-! ### The end of the data -/

/-- The end of the data has been found. -/
def HasEnded (d : Utf8Decoder) : Prop := ∃ failure, d.feed = .ended failure

variable {d d' : Utf8Decoder}

/-- The end has been found where no bytes flow and none are left. -/
theorem hasEnded_iff : d.HasEnded ↔ d.feed ≠ .flowing ∧ d.bytes = [] := by
  obtain ⟨reader, feed⟩ := d
  cases feed <;> simp [HasEnded, bytes]

theorem not_hasEnded_of_flowing (h : d.feed = .flowing) : ¬ d.HasEnded :=
  fun hended => (hasEnded_iff.1 hended).1 h

theorem hasEnded_of_readByte_none (h : d.readByte = (none, d')) : d'.HasEnded :=
  hasEnded_iff.2 ⟨feed_of_readByte_none h, (bytes_of_readByte_none h).2⟩

/-- **A character leaves the bytes flowing** unless it is cut short. -/
theorem flowing_next_iff {part : List UInt8} {c : Char} (h : d.next = (some c, d'))
    (hpart : d.bytes = part ++ d'.bytes) : d'.feed = .flowing ↔ ¬ IsIncomplete part := by
  obtain ⟨b, d₁, hr, hcases⟩ := next_cases h
  have hflow : d₁.feed = .flowing := (remaining_readByte_lt hr).2
  rw [bytes_of_readByte_some hr] at hpart
  rcases hcases with ⟨hl, _, rfl⟩ | ⟨hl, _, rfl⟩ | ⟨bits, owed, hl, hf⟩
  · obtain rfl : [b] = part := List.append_cancel_right hpart
    simp [hflow, isIncomplete_cons_iff, hl]
  · obtain rfl : [b] = part := List.append_cancel_right hpart
    simp [hflow, isIncomplete_cons_iff, hl]
  · rcases finish_cases hf with ⟨tail, htail, hcont, _, hfeed⟩ |
      ⟨met, r, left, tail, rfl, hmet, htail, _, _, hfeed⟩
    · rw [htail] at hpart
      obtain rfl : b :: tail = part := List.append_cancel_right hpart
      -- bytes that meet all ranges do not meet only some of them
      refine iff_of_true (hfeed hflow) fun hincomplete => ?_
      obtain ⟨_, met, r, left, hl', hmet⟩ := isIncomplete_cons_iff.1 hincomplete
      obtain ⟨_, rfl⟩ := Lead.opening.inj (hl.symm.trans hl')
      have hlength := hcont.length_eq.trans hmet.length_eq.symm
      simp at hlength
    · rw [htail] at hpart
      obtain rfl : b :: tail = part := List.append_cancel_right hpart
      refine iff_of_false hfeed (not_not_intro ?_)
      exact isIncomplete_cons_iff.2 ⟨bits, met, r, left, hl, hmet⟩

/-- **A character is given at the end of the data** when it is cut short by it. -/
theorem hasEnded_next_iff {part : List UInt8} {c : Char} (h : d.next = (some c, d'))
    (hpart : d.bytes = part ++ d'.bytes) : d'.HasEnded ↔ d'.bytes = [] ∧ IsIncomplete part := by
  rw [hasEnded_iff, Ne, flowing_next_iff h hpart, not_not, and_comm]

theorem hasEnded_of_next_none (h : d.next = (none, d')) : d'.HasEnded :=
  hasEnded_of_readByte_none (readByte_of_next_none h)

end Utf8Decoder

/-- **The number of requests tells whether the end has been found**: it is beyond those before the
end. -/
theorem Tracks.hasEnded_iff {answers : List ReadAnswer} {due : Option ReadFailure}
    {d : Utf8Decoder} (h : Tracks answers due d) :
    d.HasEnded ↔ ByteReader.requestsBeforeEnd answers < d.reader.requests := by
  cases h with
  | @running passed left feed happ hpassed hfeed _ =>
      have hle : passed.length ≤ ByteReader.requestsBeforeEnd answers := by
        rw [happ, ByteReader.requestsBeforeEnd_append left hpassed]
        exact Nat.le_add_right _ _
      constructor
      · rintro ⟨failure, rfl⟩
        exact hfeed.elim
      · intro hlt
        exact absurd hlt (Nat.not_lt.2 hle)
  | @ended reader hrequests _ =>
      have hlt : ByteReader.requestsBeforeEnd answers < reader.requests := by omega
      exact ⟨fun _ => hlt, fun _ => ⟨due, rfl⟩⟩

/-! ### The place of a tokenizer -/

/-- **The bytes end in the middle of a character.** -/
def EndsMidway (bytes : List UInt8) : Prop :=
  ∃ units u, Division bytes (units ++ [u]) ∧ IsIncomplete u.part

theorem Division.of_nil {units : List DecodedUnit} (h : Division [] units) : units = [] :=
  h.unique .nil

/-- The last unit tells whether the bytes end in the middle of a character. -/
theorem Division.endsMidway_iff {bytes : List UInt8} {units : List DecodedUnit} {u : DecodedUnit}
    (h : Division bytes (units ++ [u])) : EndsMidway bytes ↔ IsIncomplete u.part := by
  constructor
  · rintro ⟨units', u', h', hincomplete⟩
    obtain ⟨_, hu⟩ := List.append_inj' (h.unique h') rfl
    obtain rfl : u = u' := (List.cons.inj hu).1
    exact hincomplete
  · intro hincomplete
    exact ⟨units, u, h, hincomplete⟩

theorem not_endsMidway_nil : ¬ EndsMidway [] := by
  rintro ⟨units, u, h, _⟩
  exact absurd h.of_nil (by simp)

namespace Tokenizer

/-- **The place of a tokenizer among the units of its bytes**: so many have been taken and the
others are left, and the end has been found after the last, or with the last if it is cut
short. -/
structure Reaches (bytes : List UInt8) (t : Tokenizer Utf8Decoder) : Prop where
  exists_division : ∃ taken left, Division bytes (taken ++ left) ∧ Division t.source.bytes left
  hasEnded_iff : t.source.HasEnded ↔
    t.lookahead = none ∨ t.source.bytes = [] ∧ EndsMidway bytes

namespace Reaches

variable {bytes : List UInt8} {t t' : Tokenizer Utf8Decoder}

/-- Before the first character nothing has been found. -/
theorem start (reader : ByteReader) : Reaches reader.contents.1 (.ofReader reader) := by
  obtain ⟨units, hunits, _⟩ := Division.existsUnique reader.contents.1
  refine ⟨⟨[], units, hunits, hunits⟩, ?_⟩
  constructor
  · intro hended
    exact absurd hended (Utf8Decoder.not_hasEnded_of_flowing rfl)
  · rintro (hnone | ⟨hnil, hmidway⟩)
    · cases hnone
    · have hcontents : reader.contents.1 = [] := hnil
      rw [hcontents] at hmidway
      exact absurd hmidway not_endsMidway_nil

theorem advance (h : Reaches bytes t) : Reaches bytes t.advance := by
  obtain ⟨taken, left, hall, hleft⟩ := h.exists_division
  rcases hn : t.source.next with ⟨o, d⟩
  have hadvance : t.advance = ⟨d, o⟩ := by
    have hnext : CharSource.next t.source = (o, d) := hn
    rw [Tokenizer.advance, hnext]
  rw [hadvance]
  cases o with
  | none =>
      obtain ⟨hnil, hnil'⟩ := Utf8Decoder.bytes_of_next_none hn
      refine ⟨⟨taken, left, hall, ?_⟩, ?_⟩
      · show Division d.bytes left
        rw [hnil', ← hnil]
        exact hleft
      · simp [Utf8Decoder.hasEnded_of_next_none hn]
  | some c =>
      obtain ⟨part, hbytes, hunit⟩ := Utf8Decoder.decodesTo_of_next hn
      obtain ⟨others, hothers, _⟩ := Division.existsUnique d.bytes
      rw [hbytes] at hleft
      obtain rfl := hleft.unique (.cons hunit hothers)
      refine ⟨⟨taken ++ [⟨part, c⟩], others, ?_, hothers⟩, ?_⟩
      · rw [List.append_assoc]
        exact hall
      · show d.HasEnded ↔ some c = none ∨ d.bytes = [] ∧ EndsMidway bytes
        rw [Utf8Decoder.hasEnded_next_iff hn hbytes]
        simp only [reduceCtorEq, false_or, and_congr_right_iff]
        intro hnil
        rw [hnil] at hothers
        rw [hothers.of_nil] at hall
        exact hall.endsMidway_iff.symm

end Reaches

end Tokenizer

end StreamLexer
