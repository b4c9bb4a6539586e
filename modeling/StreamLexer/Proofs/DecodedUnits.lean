/-
**The division of bytes into units.**

`StreamLexer/Proofs/LossyDecoding.lean` says what the unit at the head of some bytes is.  Unit after
unit, this divides the bytes in one way, and whoever asks a decoder for characters again and again
gets one for each unit, in order, and then none for good.  The character that stands for ill-formed
parts has an encoding of its own, so it may also stand for itself.

Main definitions:

* `StreamLexer.DecodedUnit`, `StreamLexer.Division` — units with their characters, and **bytes
  divided into units**;
* `StreamLexer.CharSource.replies` — the answers to so many requests for a character.

Main results:

* `StreamLexer.Division.existsUnique` — bytes have exactly one division;
* `StreamLexer.Utf8Decoder.replies_eq` — the answers of a decoder are the characters of its bytes;
* `StreamLexer.decode_division` — **a decoder gives one character for each unit**.
-/

import StreamLexer.Proofs.LossyDecoding

set_option relaxedAutoImplicit false
set_option autoImplicit false

namespace StreamLexer

/-! ### Divisions -/

/-- Bytes that are decoded together, and the character that they stand for. -/
structure DecodedUnit where
  part : List UInt8
  character : Char
deriving DecidableEq, Repr

/-- **Bytes divided into units**, from left to right. -/
inductive Division : List UInt8 → List DecodedUnit → Prop
  | nil : Division [] []
  | cons {part rest : List UInt8} {c : Char} {units : List DecodedUnit} : DecodesTo rest part c →
      Division rest units → Division (part ++ rest) (⟨part, c⟩ :: units)

namespace Division

variable {bytes : List UInt8} {units units' : List DecodedUnit}

/-- Nothing of the bytes is lost. -/
theorem flatMap_part (h : Division bytes units) : units.flatMap DecodedUnit.part = bytes := by
  induction h with
  | nil => rfl
  | cons _ _ ih => rw [List.flatMap_cons, ih]

/-- The characters of the units are those of the bytes. -/
theorem lossyUtf8 (h : Division bytes units) :
    LossyUtf8 bytes (units.map DecodedUnit.character) := by
  induction h with
  | nil => exact .nil
  | cons hunit _ ih => exact .unit hunit ih

theorem unique (h : Division bytes units) (h' : Division bytes units') : units = units' := by
  induction h generalizing units' with
  | nil =>
      generalize hb : ([] : List UInt8) = bytes at h'
      cases h' with
      | nil => rfl
      | cons hunit _ => exact absurd (List.append_eq_nil_iff.1 hb.symm).1 hunit.ne_nil
  | @cons part rest c units hunit _ ih =>
      generalize hb : part ++ rest = bytes at h'
      cases h' with
      | nil => exact absurd (List.append_eq_nil_iff.1 hb).1 hunit.ne_nil
      | cons hunit' hrest' =>
          obtain ⟨rfl, rfl, rfl⟩ := hunit.unique hunit' hb
          rw [ih hrest']

/-- Where there are characters, there are units that they stand for. -/
theorem exists_of_lossyUtf8 {cs : List Char} (h : LossyUtf8 bytes cs) :
    ∃ units, Division bytes units := by
  induction h with
  | nil => exact ⟨[], .nil⟩
  | unit hunit _ ih =>
      obtain ⟨units, hunits⟩ := ih
      exact ⟨_, .cons hunit hunits⟩

/-- **Bytes have exactly one division.** -/
theorem existsUnique (bytes : List UInt8) : ∃! units, Division bytes units := by
  obtain ⟨units, h⟩ := exists_of_lossyUtf8 (lossyUtf8_iff.2 (Eq.refl (decodeUtf8 bytes)))
  exact ⟨units, h, fun _ h' => h'.unique h⟩

end Division

/-! ### The character of ill-formed parts -/

/-- The encoding of U+FFFD itself. -/
theorem utf8EncodeChar_replacementCharacter :
    String.utf8EncodeChar replacementCharacter = [0xEF, 0xBF, 0xBD] := by
  decide

/-- U+FFFD stands for a part that is no encoding, or for itself. -/
theorem DecodesTo.of_replacementCharacter {rest part : List UInt8} {c : Char}
    (h : DecodesTo rest part c) (hc : c = replacementCharacter) :
    (∀ d, part ≠ String.utf8EncodeChar d) ∨ part = [0xEF, 0xBF, 0xBD] := by
  cases h with
  | character c =>
      right
      rw [hc, utf8EncodeChar_replacementCharacter]
  | truncated _ _ hno _ =>
      left
      rintro d rfl
      exact hno d (List.prefix_append _ _)
  | stray hno _ =>
      left
      intro d hd
      refine hno d ?_
      rw [← hd]
      exact List.prefix_append _ _

theorem Division.of_replacementCharacter {bytes : List UInt8} {units : List DecodedUnit}
    (h : Division bytes units) : ∀ u ∈ units, u.character = replacementCharacter →
      (∀ d, u.part ≠ String.utf8EncodeChar d) ∨ u.part = [0xEF, 0xBF, 0xBD] := by
  induction h with
  | nil =>
      intro u hu
      exact absurd hu List.not_mem_nil
  | cons hunit _ ih =>
      intro u hu
      rcases List.mem_cons.1 hu with rfl | hu
      · intro hc
        exact hunit.of_replacementCharacter hc
      · exact ih u hu

/-! ### Asking again and again -/

/-- **The answers to so many requests** for a character. -/
def CharSource.replies {σ : Type} [CharSource σ] : Nat → σ → List (Option Char)
  | 0, _ => []
  | n + 1, s => (next s).1 :: replies n (next s).2

/-- **The answers of a decoder** are the characters of its bytes, and then none for good. -/
theorem Utf8Decoder.replies_eq (n : Nat) {d : Utf8Decoder} {cs : List Char}
    (h : LossyUtf8 d.bytes cs) :
    CharSource.replies n d = (cs.take n).map some ++ List.replicate (n - cs.length) none := by
  induction n generalizing d cs with
  | zero => simp [CharSource.replies]
  | succ n ih =>
      rcases hn : d.next with ⟨o, d'⟩
      have hnext : CharSource.next d = (o, d') := hn
      rw [CharSource.replies, hnext]
      cases o with
      | none =>
          obtain ⟨hbytes, hbytes'⟩ := bytes_of_next_none hn
          rw [hbytes] at h
          obtain rfl : cs = [] := h.of_nil
          have hrest : LossyUtf8 d'.bytes [] := hbytes' ▸ .nil
          simp only [ih hrest, List.take_nil, List.map_nil, List.nil_append, List.length_nil,
            Nat.sub_zero, List.replicate_succ]
      | some c =>
          obtain ⟨part, hbytes, hunit⟩ := decodesTo_of_next hn
          rw [hbytes] at h
          obtain ⟨cs', rfl, hrest⟩ := h.of_unit hunit
          rw [ih hrest, List.take_succ_cons, List.map_cons, List.length_cons,
            Nat.add_sub_add_right, List.cons_append]

/-- **A decoder gives one character for each unit**, in the one way in which the bytes fall into
units, and then none for good.  U+FFFD comes of parts that are no encoding, and of its own. -/
theorem decode_division (bytes : List UInt8) :
    ∃ units : List DecodedUnit, (∀ units', Division bytes units' ↔ units' = units) ∧
      units.flatMap DecodedUnit.part = bytes ∧
      decodeUtf8 bytes = units.map DecodedUnit.character ∧
      (∀ n, CharSource.replies n (Utf8Decoder.ofBytes bytes) =
        ((decodeUtf8 bytes).take n).map some ++
          List.replicate (n - (decodeUtf8 bytes).length) none) ∧
      ∀ u ∈ units, u.character = replacementCharacter →
        (∀ c, u.part ≠ String.utf8EncodeChar c) ∨ u.part = [0xEF, 0xBF, 0xBD] := by
  obtain ⟨units, h, hunique⟩ := Division.existsUnique bytes
  have hchars : units.map DecodedUnit.character = decodeUtf8 bytes := lossyUtf8_iff.1 h.lossyUtf8
  refine ⟨units, ?_, h.flatMap_part, hchars.symm, ?_, h.of_replacementCharacter⟩
  · intro units'
    constructor
    · exact hunique units'
    · rintro rfl
      exact h
  · intro n
    refine Utf8Decoder.replies_eq n ?_
    rw [Utf8Decoder.bytes_ofBytes]
    exact lossyUtf8_iff.2 rfl

/-- A byte that starts nothing, and the encoding of U+FFFD: each gives U+FFFD. -/
theorem decode_division_of_stray :
    decodeUtf8 [0xFF, 0xEF, 0xBF, 0xBD] = [replacementCharacter, replacementCharacter] ∧
      ∃ units, Division [0xFF, 0xEF, 0xBF, 0xBD] units ∧
        ∀ u ∈ units, (∀ c, u.part ≠ String.utf8EncodeChar c) ∨ u.part = [0xEF, 0xBF, 0xBD] := by
  have hdecode : decodeUtf8 [0xFF, 0xEF, 0xBF, 0xBD] =
      [replacementCharacter, replacementCharacter] := by
    decide +kernel
  obtain ⟨units, hunits, _, hchars, _, hreplacement⟩ := decode_division [0xFF, 0xEF, 0xBF, 0xBD]
  refine ⟨hdecode, units, (hunits units).2 rfl, ?_⟩
  intro u hu
  have hmem : u.character ∈ units.map DecodedUnit.character := List.mem_map_of_mem hu
  rw [← hchars, hdecode] at hmem
  exact hreplacement u hu (by simpa using hmem)

end StreamLexer
