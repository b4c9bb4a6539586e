/-
**When a decoder holds a byte back.**

A character that is whole is known to be so by its own bytes, and a byte that starts none is a unit
by itself; only where a character is cut short has a byte after it been read.  At the end of the
bytes there is no such byte, and the end has been found instead.  So what a decoder holds after a
character can be told from the unit that the character comes from and from what is left.

Main definitions:

* `StreamLexer.DecodedUnit.CutShortBy` — a unit that ends because of the byte after it.

Main results:

* `StreamLexer.DecodesTo.of_isIncomplete` — a unit that is incomplete is cut short by the byte after
  it, if there is one;
* `StreamLexer.Utf8Decoder.held_next_iff` — **a byte is held back after a character** that is cut
  short before the end of the bytes.
-/

import StreamLexer.Proofs.DecoderEnd

set_option relaxedAutoImplicit false
set_option autoImplicit false

namespace StreamLexer

/-! ### Units that are cut short -/

/-- **The unit ends because of the byte after it**: it stands for U+FFFD, an encoding could have
begun with it, and none begins with it and that byte. -/
def DecodedUnit.CutShortBy (u : DecodedUnit) (b : UInt8) : Prop :=
  u.character = replacementCharacter ∧ IsIncomplete u.part ∧
    ∀ c, ¬ u.part ++ [b] <+: String.utf8EncodeChar c

/-- A whole character is not incomplete. -/
theorem not_isIncomplete_utf8EncodeChar (c : Char) : ¬ IsIncomplete (String.utf8EncodeChar c) := by
  rintro ⟨c', hprefix, hne⟩
  exact hne (congrArg _ (encode_prefix_unique hprefix List.prefix_rfl))

/-- **A unit that is incomplete** is cut short by the byte after it, if there is one. -/
theorem DecodesTo.of_isIncomplete {rest part : List UInt8} {c : Char} (h : DecodesTo rest part c)
    (hpart : IsIncomplete part) : c = replacementCharacter ∧
      ∀ b more, rest = b :: more → ∀ c', ¬ part ++ [b] <+: String.utf8EncodeChar c' := by
  cases h with
  | character c => exact absurd hpart (not_isIncomplete_utf8EncodeChar c)
  | truncated _ _ hno hmax =>
      refine ⟨rfl, ?_⟩
      rintro b more rfl c' hprefix
      have hhead : part ++ [b] <+: part ++ b :: more := ⟨more, by simp⟩
      by_cases he : part ++ [b] = String.utf8EncodeChar c'
      · exact hno c' (he ▸ hhead)
      · have hle := hmax _ hhead ⟨c', hprefix, he⟩
        rw [List.length_append, List.length_singleton] at hle
        omega
  | stray _ hnone => exact absurd hpart (hnone _ ⟨rest, rfl⟩ (List.cons_ne_nil _ _))

/-- A character other than U+FFFD is whole. -/
theorem DecodesTo.eq_utf8EncodeChar {rest part : List UInt8} {c : Char}
    (h : DecodesTo rest part c) (hc : c ≠ replacementCharacter) :
    part = String.utf8EncodeChar c := by
  cases h with
  | character => rfl
  | truncated => exact absurd rfl hc
  | stray => exact absurd rfl hc

/-- Within a division each unit stands before those that follow it. -/
theorem Division.decodesTo {bytes : List UInt8} {before after : List DecodedUnit} {u : DecodedUnit}
    (h : Division bytes (before ++ u :: after)) :
    DecodesTo (after.flatMap DecodedUnit.part) u.part u.character := by
  induction before generalizing bytes with
  | nil =>
      cases h with
      | cons hunit hrest =>
          obtain rfl := hrest.flatMap_part
          exact hunit
  | cons v before ih =>
      cases h with
      | cons _ hrest => exact ih hrest

namespace Utf8Decoder

variable {d d' : Utf8Decoder}

/-! ### What a character leaves -/

theorem bytes_of_held {b : UInt8} (h : d.feed = .held b) : d.bytes = b :: d.reader.contents.1 := by
  simp only [bytes, h]

/-- A byte is held back where none flow and some are left. -/
theorem held_iff : (∃ b, d.feed = .held b) ↔ d.feed ≠ .flowing ∧ d.bytes ≠ [] := by
  obtain ⟨reader, feed⟩ := d
  cases feed <;> simp [bytes]

/-- **A byte is held back after a character** that is cut short before the end of the bytes. -/
theorem held_next_iff {part : List UInt8} {c : Char} (h : d.next = (some c, d'))
    (hpart : d.bytes = part ++ d'.bytes) :
    (∃ b, d'.feed = .held b) ↔ d'.bytes ≠ [] ∧ IsIncomplete part := by
  rw [held_iff, Ne, flowing_next_iff h hpart, not_not, and_comm]

end Utf8Decoder

end StreamLexer
