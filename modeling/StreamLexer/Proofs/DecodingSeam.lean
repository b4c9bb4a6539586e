/-
**Well-formed text after any bytes.**

The bytes of an encoding after its first are continuation bytes, and its first is none.  So what an
encoding could begin with never reaches across a point where something other than a continuation
byte comes: whatever state the decoder is in there, it finishes with what it has and starts afresh.
An encoded text begins with such a byte, so however bytes before it are broken, its characters come
out undamaged; and encodings are taken whole, so bytes after it do them no harm either.

Main definitions:

* `StreamLexer.StartsAfresh` — bytes that do not begin with a continuation byte.

Main results:

* `StreamLexer.prefix_of_startsAfresh` — the beginning of an encoding does not reach across;
* `StreamLexer.DecodesTo.append_right` — **what one unit preserves**: it is the same with bytes after
  it that start afresh;
* `StreamLexer.LossyUtf8.append` — the characters are the same with bytes after them that start
  afresh;
* `StreamLexer.decode_around_encoding` — **text is decoded undamaged** between any bytes.
-/

import StreamLexer.Proofs.LineFraming

set_option relaxedAutoImplicit false
set_option autoImplicit false

namespace StreamLexer

/-! ### Continuation bytes -/

theorem ByteRange.continuation_of_second {n : Nat} {b : UInt8}
    (h : (second n).contains b = true) : continuation.contains b = true :=
  contains_continuation_iff.2 (contains_second_iff.1 h).1

/-- Every range that a lead byte announces is one of continuation bytes. -/
theorem Lead.continuation_of_contains {b : UInt8} {bits : Nat} {owed : List ByteRange}
    (h : ofByte b = .opening bits owed) :
    ∀ r ∈ owed, ∀ x, r.contains x = true → ByteRange.continuation.contains x = true := by
  have hsecond : ∀ x, (ByteRange.second b.toNat).contains x = true →
      ByteRange.continuation.contains x = true := fun x => ByteRange.continuation_of_second
  rcases ofByte_eq_opening h with ⟨_, _, _, rfl⟩ | ⟨_, _, _, rfl⟩ | ⟨_, _, _, rfl⟩
  · simp
  · simpa using hsecond
  · simpa using hsecond

theorem Continues.exists_contains {owed : List ByteRange} {tail : List UInt8}
    (h : Continues owed tail) {x : UInt8} (hx : x ∈ tail) : ∃ r ∈ owed, r.contains x = true := by
  induction h with
  | nil => exact absurd hx List.not_mem_nil
  | @cons r b owed tail hr _ ih =>
      rcases List.mem_cons.1 hx with rfl | hx
      · exact ⟨r, List.mem_cons_self, hr⟩
      · obtain ⟨r', hr', hcontains⟩ := ih hx
        exact ⟨r', List.mem_cons_of_mem r hr', hcontains⟩

/-- **An encoding is a byte that is no continuation byte, and continuation bytes after it.** -/
theorem utf8EncodeChar_continuation {c : Char} {b : UInt8} {tail : List UInt8}
    (h : String.utf8EncodeChar c = b :: tail) :
    ByteRange.continuation.contains b = false ∧
      ∀ x ∈ tail, ByteRange.continuation.contains x = true := by
  have hnot : (b.toNat < 0x80 ∨ 0xC2 ≤ b.toNat) → ByteRange.continuation.contains b = false := by
    intro hb
    refine Bool.eq_false_iff.2 (mt ByteRange.contains_continuation_iff.1 ?_)
    omega
  have hprefix : String.utf8EncodeChar c <+: b :: tail := h ▸ List.prefix_rfl
  rcases encode_prefix_cons hprefix with
    ⟨hlead, he⟩ | ⟨bits, owed, tail', hlead, hcont, _, he⟩
  · obtain ⟨_, rfl⟩ := List.cons.inj (h.symm.trans he)
    exact ⟨hnot (Or.inl (Lead.lt_of_ofByte_single hlead)), by simp⟩
  · obtain ⟨_, rfl⟩ := List.cons.inj (h.symm.trans he)
    constructor
    · refine hnot (Or.inr ?_)
      rcases Lead.ofByte_eq_opening hlead with ⟨_, _, _, _⟩ | ⟨_, _, _, _⟩ | ⟨_, _, _, _⟩ <;> omega
    · intro x hx
      obtain ⟨r, hr, hcontains⟩ := hcont.exists_contains hx
      exact Lead.continuation_of_contains hlead r hr x hcontains

/-! ### Where decoding starts afresh -/

/-- **The bytes do not begin with a continuation byte.** -/
def StartsAfresh (bytes : List UInt8) : Prop :=
  ∀ b ∈ bytes.head?, ByteRange.continuation.contains b = false

/-- An encoded text does not begin with a continuation byte, whatever comes after it. -/
theorem startsAfresh_encodeUtf8 {cs : List Char} (h : cs ≠ []) (bytes : List UInt8) :
    StartsAfresh (encodeUtf8 cs ++ bytes) := by
  obtain ⟨c, cs, rfl⟩ := List.exists_cons_of_ne_nil h
  obtain ⟨b, tail, he⟩ := List.exists_cons_of_ne_nil (String.utf8EncodeChar_ne_nil (c := c))
  intro x hx
  rw [encodeUtf8, List.flatMap_cons, he] at hx
  obtain rfl : b = x := Option.some.inj hx
  exact (utf8EncodeChar_continuation he).1

/-- **What an encoding begins with does not reach across** a point where bytes start afresh. -/
theorem prefix_of_startsAfresh {part bytes more : List UInt8} {c : Char}
    (hmore : StartsAfresh more) (hne : bytes ≠ []) (hpart : part <+: String.utf8EncodeChar c)
    (h : part <+: bytes ++ more) : part <+: bytes := by
  obtain ⟨after, hafter⟩ := h
  rcases List.append_eq_append_iff.1 hafter with ⟨left, hbytes, _⟩ | ⟨across, hpart', hmore'⟩
  · exact ⟨left, hbytes.symm⟩
  · cases across with
    | nil =>
        have heq : part = bytes := hpart'.trans (List.append_nil bytes)
        exact heq ▸ List.prefix_rfl
    | cons x across =>
        -- the first byte across would be a continuation byte of the encoding
        obtain ⟨b, bytes, rfl⟩ := List.exists_cons_of_ne_nil hne
        obtain ⟨rest, hrest⟩ := hpart
        rw [hpart', List.cons_append, List.cons_append] at hrest
        have hcont := (utf8EncodeChar_continuation hrest.symm).2 x (by simp)
        have hnot := hmore x (by rw [hmore']; rfl)
        rw [hcont] at hnot
        exact absurd hnot.symm Bool.false_ne_true

/-! ### Units and characters -/

variable {rest part more bytes : List UInt8} {c : Char} {cs cs' : List Char}

/-- **A unit is the same** with bytes after it that start afresh. -/
theorem DecodesTo.append_right (h : DecodesTo rest part c) (hmore : StartsAfresh more) :
    DecodesTo (rest ++ more) part c := by
  have hpart := h.ne_nil
  cases h with
  | character => exact .character _
  | truncated hne hinc hno hmax =>
      have hbytes : part ++ rest ≠ [] := List.append_ne_nil_of_left_ne_nil hne rest
      refine .truncated hne hinc ?_ ?_
      · intro d hd
        rw [← List.append_assoc] at hd
        exact hno d (prefix_of_startsAfresh hmore hbytes List.prefix_rfl hd)
      · intro longer hlonger hincomplete
        rw [← List.append_assoc] at hlonger
        obtain ⟨d, hd, _⟩ := id hincomplete
        exact hmax longer (prefix_of_startsAfresh hmore hbytes hd hlonger) hincomplete
  | @stray b hno hnone =>
      have hbytes : b :: rest ≠ [] := List.cons_ne_nil b rest
      refine .stray ?_ ?_
      · intro d hd
        rw [← List.cons_append] at hd
        exact hno d (prefix_of_startsAfresh hmore hbytes List.prefix_rfl hd)
      · intro longer hlonger hne hincomplete
        rw [← List.cons_append] at hlonger
        obtain ⟨d, hd, _⟩ := id hincomplete
        exact hnone longer (prefix_of_startsAfresh hmore hbytes hd hlonger) hne hincomplete

/-- **The characters of bytes are the same** with bytes after them that start afresh, and the
characters of these come after them. -/
theorem LossyUtf8.append (h : LossyUtf8 bytes cs) (hmore : StartsAfresh more)
    (h' : LossyUtf8 more cs') : LossyUtf8 (bytes ++ more) (cs ++ cs') := by
  induction h with
  | nil => exact h'
  | unit hunit _ ih =>
      rw [List.append_assoc]
      exact .unit (hunit.append_right hmore) ih

/-- The characters of a text come out of its encoding, whatever bytes come after it. -/
theorem LossyUtf8.encode_append (cs : List Char) (h : LossyUtf8 bytes cs') :
    LossyUtf8 (encodeUtf8 cs ++ bytes) (cs ++ cs') := by
  induction cs with
  | nil => exact h
  | cons c cs ih =>
      rw [encodeUtf8, List.flatMap_cons, List.append_assoc]
      exact .unit (.character c) ih

theorem decodeUtf8_append (h : StartsAfresh more) :
    decodeUtf8 (bytes ++ more) = decodeUtf8 bytes ++ decodeUtf8 more :=
  (lossyUtf8_iff.1 ((lossyUtf8_iff.2 rfl).append h (lossyUtf8_iff.2 rfl))).symm

/-- Where bytes do not start afresh they may go on with what comes before. -/
example : decodeUtf8 ([0xC3] ++ [0xA9]) ≠ decodeUtf8 [0xC3] ++ decodeUtf8 [0xA9] := by
  decide +kernel

theorem decodeUtf8_encode_append (cs : List Char) (bytes : List UInt8) :
    decodeUtf8 (encodeUtf8 cs ++ bytes) = cs ++ decodeUtf8 bytes :=
  (lossyUtf8_iff.1 (LossyUtf8.encode_append cs (lossyUtf8_iff.2 rfl))).symm

/-- Every decoder, whatever its reader answers and whatever it holds back, gives the characters of
its bytes. -/
theorem Utf8Decoder.readAll_fst (d : Utf8Decoder) :
    (CharSource.readAll d).1 = decodeUtf8 d.bytes :=
  lossyUtf8_iff.1 d.lossyUtf8_readAll

/-- **Text is decoded undamaged between any bytes.**  After any bytes an encoded text gives exactly
its characters, and if it is not empty the bytes after it give what they would alone.  All that
counts are the bytes: how a reader delivers them, and how far a decoder has come, makes no
difference. -/
theorem decode_around_encoding (a b : List UInt8) (s : String) :
    decodeUtf8 (a ++ encodeUtf8 s.toList) = decodeUtf8 a ++ s.toList ∧
      decodeUtf8 (encodeUtf8 s.toList) = s.toList ∧
      (s ≠ "" → decodeUtf8 (a ++ encodeUtf8 s.toList ++ b) =
        decodeUtf8 a ++ s.toList ++ decodeUtf8 b) ∧
      ∀ d : Utf8Decoder, (CharSource.readAll d).1 = decodeUtf8 d.bytes := by
  have haround : s ≠ "" → ∀ bytes, decodeUtf8 (a ++ (encodeUtf8 s.toList ++ bytes)) =
      decodeUtf8 a ++ (s.toList ++ decodeUtf8 bytes) := by
    intro hs bytes
    have hne : s.toList ≠ [] := by simpa using hs
    rw [decodeUtf8_append (startsAfresh_encodeUtf8 hne bytes), decodeUtf8_encode_append]
  refine ⟨?_, decodeUtf8_encodeUtf8 s.toList, ?_, Utf8Decoder.readAll_fst⟩
  · by_cases hs : s = ""
    · simp [hs, encodeUtf8]
    · have hnil : decodeUtf8 [] = [] := (lossyUtf8_iff.2 rfl).of_nil
      have h := haround hs []
      rwa [hnil, List.append_nil, List.append_nil] at h
  · intro hs
    rw [List.append_assoc, haround hs b, List.append_assoc]

/-- A sequence cut short before a letter of two bytes, and a continuation byte after it. -/
theorem decode_around_encoding_of_cut :
    "é" ≠ "" ∧
      decodeUtf8 ([0xE2, 0x82] ++ encodeUtf8 "é".toList ++ [0xA9]) =
        decodeUtf8 [0xE2, 0x82] ++ "é".toList ++ decodeUtf8 [0xA9] ∧
      decodeUtf8 [0xE2, 0x82] ++ "é".toList ++ decodeUtf8 [0xA9] =
        [replacementCharacter, 'é', replacementCharacter] := by
  have hne : "é" ≠ "" := by decide
  obtain ⟨_, _, haround, _⟩ := decode_around_encoding [0xE2, 0x82] [0xA9] "é"
  exact ⟨hne, haround hne, by decide +kernel⟩

end StreamLexer
