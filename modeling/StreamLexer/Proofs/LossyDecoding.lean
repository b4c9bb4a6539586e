/-
**Lossy decoding.**

Bytes that are no encoding of a text are decoded all the same: at each point the encoding of a
character that starts there is taken; if none does, the longest part that an encoding could begin
with, or else a single byte, is taken for one U+FFFD.  This says what the characters are without
saying how one finds them, and it determines them.  The decoder of
`StreamLexer/Source/Utf8Decoder.lean`, which goes by the ranges that a lead byte announces and
looks at no byte twice, finds them.

Main definitions:

* `StreamLexer.IsIncomplete` — bytes that an encoding begins with, and goes on after;
* `StreamLexer.DecodesTo` — **the unit at the head of some bytes, and its character**;
* `StreamLexer.LossyUtf8` — the characters of a list of bytes;
* `StreamLexer.Utf8Decoder.bytes` — the bytes that a decoder has still to deal with.

Main results:

* `StreamLexer.DecodesTo.unique`, `StreamLexer.LossyUtf8.unique` — units and characters are
  determined by the bytes;
* `StreamLexer.Utf8Decoder.decodesTo_of_next` — **each character comes from one unit**;
* `StreamLexer.Utf8Decoder.lossyUtf8_readAll`, `StreamLexer.lossyUtf8_iff` — the decoder finds the
  characters of its bytes, whatever they are.
-/

import StreamLexer.Proofs.Utf8Encoding

set_option relaxedAutoImplicit false
set_option autoImplicit false

namespace StreamLexer

/-! ### Units -/

/-- Some encoding begins with these bytes and goes on after them. -/
def IsIncomplete (part : List UInt8) : Prop :=
  ∃ c, part <+: String.utf8EncodeChar c ∧ part ≠ String.utf8EncodeChar c

/-- **The unit at the head of `part ++ rest` is `part`**, and it stands for a character. -/
inductive DecodesTo (rest : List UInt8) : List UInt8 → Char → Prop
  | character (c : Char) : DecodesTo rest (String.utf8EncodeChar c) c
  /-- No encoding starts here, and `part` is as much as could have been of one. -/
  | truncated {part : List UInt8} : part ≠ [] → IsIncomplete part →
      (∀ c, ¬ String.utf8EncodeChar c <+: part ++ rest) →
      (∀ longer, longer <+: part ++ rest → IsIncomplete longer → longer.length ≤ part.length) →
      DecodesTo rest part replacementCharacter
  /-- No encoding starts here, nor a part of one. -/
  | stray {b : UInt8} : (∀ c, ¬ String.utf8EncodeChar c <+: b :: rest) →
      (∀ part, part <+: b :: rest → part ≠ [] → ¬ IsIncomplete part) →
      DecodesTo rest [b] replacementCharacter

/-- **The characters of a list of bytes**, unit by unit. -/
inductive LossyUtf8 : List UInt8 → List Char → Prop
  | nil : LossyUtf8 [] []
  | unit {part rest : List UInt8} {c : Char} {cs : List Char} : DecodesTo rest part c →
      LossyUtf8 rest cs → LossyUtf8 (part ++ rest) (c :: cs)

/-! ### What the lead byte tells -/

/-- An encoding at the head of some bytes: the lead byte is a character by itself, or the ranges
that it announces have bytes after it. -/
theorem encode_prefix_cons {c : Char} {b : UInt8} {bytes : List UInt8}
    (h : String.utf8EncodeChar c <+: b :: bytes) :
    (Lead.ofByte b = .single ∧ String.utf8EncodeChar c = [b]) ∨
      ∃ bits owed tail, Lead.ofByte b = .opening bits owed ∧ Continues owed tail ∧
        tail <+: bytes ∧ String.utf8EncodeChar c = b :: tail := by
  rcases utf8EncodeChar_cases c with ⟨hlt, he⟩ | ⟨b', tail, bits, owed, he, hlead, hcont, _⟩
  · rw [he] at h
    obtain ⟨hb, _⟩ := List.cons_prefix_cons.1 h
    refine Or.inl ⟨?_, by rw [he, hb]⟩
    refine Lead.ofByte_of_lt ?_
    rw [← hb, UInt8.toNat_ofNat']
    omega
  · rw [he] at h
    obtain ⟨rfl, htail⟩ := List.cons_prefix_cons.1 h
    exact Or.inr ⟨bits, owed, tail, hlead, hcont, htail, he⟩

/-- Ranges that bytes go beyond. -/
theorem Continues.exists_split {owed : List ByteRange} {tail more : List UInt8} {x : UInt8}
    (h : Continues owed (tail ++ x :: more)) :
    ∃ met r left, owed = met ++ r :: left ∧ Continues met tail ∧ r.contains x = true := by
  induction tail generalizing owed with
  | nil =>
      obtain ⟨r, left, hr, _, rfl⟩ := List.forall₂_cons_right_iff.1 h
      exact ⟨[], r, left, rfl, .nil, hr⟩
  | cons b tail ih =>
      obtain ⟨r₀, owed', hr₀, hrest, rfl⟩ := List.forall₂_cons_right_iff.1 h
      obtain ⟨met, r, left, rfl, hmet, hr⟩ := ih hrest
      exact ⟨r₀ :: met, r, left, rfl, .cons hr₀ hmet, hr⟩

theorem ByteRange.exists_contains_second (n : Nat) : ∃ b, (second n).contains b = true := by
  unfold second
  split
  · exact ⟨0xA0, by decide⟩
  split
  · exact ⟨0x80, by decide⟩
  split
  · exact ⟨0x90, by decide⟩
  split
  · exact ⟨0x80, by decide⟩
  · exact ⟨0x80, by decide⟩

/-- No range that a lead byte announces is empty. -/
theorem Lead.exists_contains {b : UInt8} {bits : Nat} {owed : List ByteRange}
    (h : ofByte b = .opening bits owed) : ∀ r ∈ owed, ∃ x, r.contains x = true := by
  have hsecond := ByteRange.exists_contains_second b.toNat
  have hcont : ∃ x, ByteRange.continuation.contains x = true := ⟨0x80, by decide⟩
  rcases ofByte_eq_opening h with ⟨_, _, _, rfl⟩ | ⟨_, _, _, rfl⟩ | ⟨_, _, _, rfl⟩
  · simpa using hcont
  · simpa using ⟨hsecond, hcont⟩
  · simpa using ⟨hsecond, hcont⟩

theorem exists_continues {owed : List ByteRange} (h : ∀ r ∈ owed, ∃ x, r.contains x = true) :
    ∃ tail, Continues owed tail := by
  induction owed with
  | nil => exact ⟨[], .nil⟩
  | cons r owed ih =>
      obtain ⟨x, hx⟩ := h r (by simp)
      obtain ⟨tail, htail⟩ := ih fun r' hr' => h r' (List.mem_cons_of_mem r hr')
      exact ⟨x :: tail, .cons hx htail⟩

/-- Where a byte does not go on, ranges are met no further. -/
theorem Continues.length_le_of_blocked {met owed left : List ByteRange} {r : ByteRange}
    {tail tail' rest : List UInt8} (hmet : Continues met tail) (howed : Continues owed tail')
    (hpre : owed <+: met ++ r :: left) (htail : tail' <+: tail ++ rest)
    (hnext : ∀ x more, rest = x :: more → r.contains x = false) : tail'.length ≤ tail.length := by
  induction hmet generalizing owed tail' with
  | nil =>
      cases howed with
      | nil => exact Nat.le_refl _
      | cons hx _ =>
          obtain ⟨rfl, _⟩ := List.cons_prefix_cons.1 hpre
          obtain ⟨more, hmore⟩ := htail
          rw [hnext _ _ hmore.symm] at hx
          exact absurd hx Bool.false_ne_true
  | cons _ _ ih =>
      cases howed with
      | nil => exact Nat.zero_le _
      | cons _ howed =>
          obtain ⟨_, hpre⟩ := List.cons_prefix_cons.1 hpre
          obtain ⟨_, htail⟩ := List.cons_prefix_cons.1 htail
          exact Nat.succ_le_succ (ih howed hpre htail)

/-- **Bytes are incomplete when they meet some, and not all, of the ranges announced.** -/
theorem isIncomplete_cons_iff {b : UInt8} {tail : List UInt8} :
    IsIncomplete (b :: tail) ↔ ∃ bits met r left,
      Lead.ofByte b = .opening bits (met ++ r :: left) ∧ Continues met tail := by
  constructor
  · rintro ⟨c, hpre, hne⟩
    rcases utf8EncodeChar_cases c with ⟨_, he⟩ | ⟨b', tail', bits, owed, he, hlead, hcont, _⟩
    · rw [he] at hpre hne
      obtain ⟨rfl, htail⟩ := List.cons_prefix_cons.1 hpre
      exact absurd (by rw [List.prefix_nil.1 htail]) hne
    · rw [he] at hpre hne
      obtain ⟨rfl, more, rfl⟩ := List.cons_prefix_cons.1 hpre
      cases more with
      | nil => exact absurd (by rw [List.append_nil]) hne
      | cons x more =>
          obtain ⟨met, r, left, rfl, hmet, _⟩ := hcont.exists_split
          exact ⟨bits, met, r, left, hlead, hmet⟩
  · rintro ⟨bits, met, r, left, hlead, hmet⟩
    -- no range is empty, so bytes for those that are left make an encoding of it
    have hnonempty := Lead.exists_contains hlead
    obtain ⟨x, hx⟩ := hnonempty r (by simp)
    obtain ⟨more, hmore⟩ : ∃ more, Continues left more :=
      exists_continues fun r' hr' => hnonempty r' (by simp [hr'])
    have hcont : Continues (met ++ r :: left) (tail ++ x :: more) :=
      List.rel_append hmet (.cons hx hmore)
    have he := IsSequence.utf8EncodeChar_eq ⟨b, _, bits, _, rfl, hlead, hcont, rfl⟩
    refine ⟨Char.ofNat (scalarValue bits (tail ++ x :: more)), ?_, ?_⟩
    · rw [he]
      exact ⟨x :: more, rfl⟩
    · rw [he]
      simp

/-! ### Units are determined -/

/-- No encoding begins with another. -/
theorem encode_prefix_unique {c c' : Char} {bytes : List UInt8}
    (h : String.utf8EncodeChar c <+: bytes) (h' : String.utf8EncodeChar c' <+: bytes) : c = c' := by
  obtain ⟨more, rfl⟩ := h
  obtain ⟨more', he⟩ := h'
  have hc := ByteArray.utf8DecodeChar?_utf8EncodeChar_append (b := more.toByteArray) (c := c)
  have hc' := ByteArray.utf8DecodeChar?_utf8EncodeChar_append (b := more'.toByteArray) (c := c')
  rw [← List.toByteArray_append] at hc hc'
  rw [he, hc] at hc'
  exact Option.some.inj hc'

theorem DecodesTo.ne_nil {rest part : List UInt8} {c : Char} (h : DecodesTo rest part c) :
    part ≠ [] := by
  cases h with
  | character => exact String.utf8EncodeChar_ne_nil
  | truncated hne => exact hne
  | stray => exact List.cons_ne_nil _ _

/-- **The unit at the head of some bytes is determined**, and so is its character. -/
theorem DecodesTo.unique {rest part rest' part' : List UInt8} {c c' : Char}
    (h : DecodesTo rest part c) (h' : DecodesTo rest' part' c') (he : part ++ rest = part' ++ rest') :
    part = part' ∧ rest = rest' ∧ c = c' := by
  have hsame : part = part' ∧ c = c' := by
    cases h with
    | character =>
        cases h' with
        | character =>
            obtain rfl := encode_prefix_unique ⟨rest, he⟩ ⟨rest', rfl⟩
            exact ⟨rfl, rfl⟩
        | truncated _ _ hno => exact absurd ⟨rest, he⟩ (hno c)
        | stray hno => exact absurd ⟨rest, he⟩ (hno c)
    | truncated hne hinc hno hmax =>
        cases h' with
        | character => exact absurd ⟨rest', he.symm⟩ (hno c')
        | truncated _ hinc' _ hmax' =>
            -- each is as long as any such part, so they are of one length
            have hpre' : part' <+: part ++ rest := ⟨rest', he.symm⟩
            have hle : part'.length ≤ part.length := hmax part' hpre' hinc'
            have hle' : part.length ≤ part'.length := hmax' part ⟨rest, he⟩ hinc
            have hpre : part' <+: part :=
              List.prefix_of_prefix_length_le hpre' (List.prefix_append part rest) hle
            exact ⟨(hpre.eq_of_length_le hle').symm, rfl⟩
        | stray _ hnone => exact absurd hinc (hnone part ⟨rest, he⟩ hne)
    | stray hno hnone =>
        cases h' with
        | character => exact absurd ⟨rest', he.symm⟩ (hno c')
        | truncated hne' hinc' => exact absurd hinc' (hnone part' ⟨rest', he.symm⟩ hne')
        | stray => exact ⟨by rw [(List.cons.inj he).1], rfl⟩
  obtain ⟨rfl, rfl⟩ := hsame
  exact ⟨rfl, List.append_cancel_left he, rfl⟩

/-- Where a unit is known, the characters go on after it. -/
theorem LossyUtf8.of_unit {rest part : List UInt8} {c : Char} {cs : List Char}
    (h : DecodesTo rest part c) (hcs : LossyUtf8 (part ++ rest) cs) :
    ∃ cs', cs = c :: cs' ∧ LossyUtf8 rest cs' := by
  generalize hb : part ++ rest = bytes at hcs
  cases hcs with
  | nil => exact absurd (List.append_eq_nil_iff.1 hb).1 h.ne_nil
  | unit hunit hrest =>
      obtain ⟨_, rfl, rfl⟩ := h.unique hunit hb
      exact ⟨_, rfl, hrest⟩

theorem LossyUtf8.of_nil {cs : List Char} (h : LossyUtf8 [] cs) : cs = [] := by
  generalize hb : ([] : List UInt8) = bytes at h
  cases h with
  | nil => rfl
  | unit hunit => exact absurd (List.append_eq_nil_iff.1 hb.symm).1 hunit.ne_nil

/-- **The characters of a list of bytes are determined.** -/
theorem LossyUtf8.unique {bytes : List UInt8} {cs cs' : List Char} (h : LossyUtf8 bytes cs)
    (h' : LossyUtf8 bytes cs') : cs = cs' := by
  induction h generalizing cs' with
  | nil => exact h'.of_nil.symm
  | unit hunit _ ih =>
      obtain ⟨cs'', rfl, hrest⟩ := h'.of_unit hunit
      rw [ih hrest]

/-! ### The bytes of a reader -/

namespace ByteReader

theorem contentsFrom_of_deliverFrom_byte {as : List ReadAnswer} {n : Nat} {b : UInt8}
    {r : ByteReader} (h : deliverFrom as n = (.byte b, r)) :
    contentsFrom as = (b :: r.contents.1, r.contents.2) := by
  induction as generalizing n with
  | nil => simp [deliverFrom] at h
  | cons a as ih =>
      cases a with
      | byte b' =>
          simp only [deliverFrom, Prod.mk.injEq, Delivery.byte.injEq] at h
          obtain ⟨rfl, rfl⟩ := h
          rfl
      | finished => simp [deliverFrom] at h
      | interrupted => exact ih h
      | failed f => simp [deliverFrom] at h

theorem contentsFrom_of_deliverFrom_ended {as : List ReadAnswer} {n : Nat}
    {f : Option ReadFailure} {r : ByteReader} (h : deliverFrom as n = (.ended f, r)) :
    contentsFrom as = ([], f) := by
  induction as generalizing n with
  | nil =>
      simp only [deliverFrom, Prod.mk.injEq, Delivery.ended.injEq] at h
      rw [← h.1]
      rfl
  | cons a as ih =>
      cases a with
      | byte b => simp [deliverFrom] at h
      | finished =>
          simp only [deliverFrom, Prod.mk.injEq, Delivery.ended.injEq] at h
          rw [← h.1]
          rfl
      | interrupted => exact ih h
      | failed f' =>
          simp only [deliverFrom, Prod.mk.injEq, Delivery.ended.injEq] at h
          rw [← h.1]
          rfl

end ByteReader

/-! ### The decoder -/

namespace Utf8Decoder

/-- The bytes that a decoder has still to deal with. -/
def bytes (d : Utf8Decoder) : List UInt8 :=
  match d.feed with
  | .flowing => d.reader.contents.1
  | .held b => b :: d.reader.contents.1
  | .ended _ => []

theorem bytes_of_readByte_some {d d' : Utf8Decoder} {b : UInt8} (h : d.readByte = (some b, d')) :
    d.bytes = b :: d'.bytes := by
  obtain ⟨reader, feed⟩ := d
  cases feed with
  | held b' =>
      simp only [readByte, Prod.mk.injEq, Option.some.injEq] at h
      obtain ⟨rfl, rfl⟩ := h
      rfl
  | ended f => simp [readByte] at h
  | flowing =>
      rcases hd : reader.deliver with ⟨delivery, r⟩
      cases delivery with
      | byte b' =>
          simp only [readByte, hd, Prod.mk.injEq, Option.some.injEq] at h
          obtain ⟨rfl, rfl⟩ := h
          have hc : reader.contents = _ := ByteReader.contentsFrom_of_deliverFrom_byte hd
          simp only [bytes, hc]
      | ended f => simp [readByte, hd] at h

theorem bytes_of_readByte_none {d d' : Utf8Decoder} (h : d.readByte = (none, d')) :
    d.bytes = [] ∧ d'.bytes = [] := by
  obtain ⟨reader, feed⟩ := d
  cases feed with
  | held b => simp [readByte] at h
  | ended f =>
      simp only [readByte, Prod.mk.injEq, true_and] at h
      rw [← h]
      exact ⟨rfl, rfl⟩
  | flowing =>
      rcases hd : reader.deliver with ⟨delivery, r⟩
      cases delivery with
      | byte b => simp [readByte, hd] at h
      | ended f =>
          simp only [readByte, hd, Prod.mk.injEq, true_and] at h
          have hc : reader.contents = _ := ByteReader.contentsFrom_of_deliverFrom_ended hd
          rw [← h]
          exact ⟨by simp only [bytes, hc], rfl⟩

/-- Where no byte is left none flows any more. -/
theorem feed_of_readByte_none {d d' : Utf8Decoder} (h : d.readByte = (none, d')) :
    d'.feed ≠ .flowing := by
  obtain ⟨reader, feed⟩ := d
  cases feed with
  | held b => simp [readByte] at h
  | ended f =>
      simp only [readByte, Prod.mk.injEq, true_and] at h
      rw [← h]
      exact Feed.noConfusion
  | flowing =>
      rcases hd : reader.deliver with ⟨delivery, r⟩
      cases delivery with
      | byte b => simp [readByte, hd] at h
      | ended f =>
          simp only [readByte, hd, Prod.mk.injEq, true_and] at h
          rw [← h]
          exact Feed.noConfusion

/-- A byte held back is as good as not read. -/
theorem bytes_held {d d' : Utf8Decoder} {b : UInt8} (h : d.readByte = (some b, d')) :
    bytes ⟨d'.reader, .held b⟩ = d.bytes := by
  have hflow : d'.feed = .flowing := (remaining_readByte_lt h).2
  rw [bytes_of_readByte_some h]
  simp only [bytes, hflow]

theorem finish_of_none {range : ByteRange} {owed : List ByteRange} {bits : Nat}
    {d d' : Utf8Decoder} (h : d.readByte = (none, d')) :
    finish bits (range :: owed) d = (replacementCharacter, d') := by
  rw [finish, h]

theorem finish_of_contains {range : ByteRange} {owed : List ByteRange} {bits : Nat} {b : UInt8}
    {d d' : Utf8Decoder} (h : d.readByte = (some b, d')) (hc : range.contains b = true) :
    finish bits (range :: owed) d = finish (pushContinuation bits b) owed d' := by
  rw [finish, h]
  simp only [hc, if_true]
  rw [pushContinuation_eq]

theorem finish_of_blocked {range : ByteRange} {owed : List ByteRange} {bits : Nat} {b : UInt8}
    {d d' : Utf8Decoder} (h : d.readByte = (some b, d')) (hc : range.contains b = false) :
    finish bits (range :: owed) d = (replacementCharacter, ⟨d'.reader, .held b⟩) := by
  rw [finish, h]
  simp only [hc, Bool.false_eq_true, if_false]

/-- **What finishing a character comes to**: all ranges are met, and bytes flow on; or the next byte,
if there is one, is not in the first range left, and they do not. -/
theorem finish_cases {owed : List ByteRange} {bits : Nat} {d d' : Utf8Decoder} {c : Char}
    (h : finish bits owed d = (c, d')) :
    (∃ tail, d.bytes = tail ++ d'.bytes ∧ Continues owed tail ∧
        c = Char.ofNat (scalarValue bits tail) ∧ (d.feed = .flowing → d'.feed = .flowing)) ∨
      ∃ met r left tail, owed = met ++ r :: left ∧ Continues met tail ∧
        d.bytes = tail ++ d'.bytes ∧ (∀ x more, d'.bytes = x :: more → r.contains x = false) ∧
        c = replacementCharacter ∧ d'.feed ≠ .flowing := by
  induction owed generalizing bits d with
  | nil =>
      obtain ⟨rfl, rfl⟩ := Prod.mk.inj h
      exact Or.inl ⟨[], rfl, .nil, rfl, id⟩
  | cons range owed ih =>
      rcases hr : d.readByte with ⟨o, d₁⟩
      cases o with
      | none =>
          rw [finish_of_none hr] at h
          obtain ⟨rfl, rfl⟩ := Prod.mk.inj h
          obtain ⟨hb, hb₁⟩ := bytes_of_readByte_none hr
          refine Or.inr ⟨[], range, owed, [], rfl, .nil, ?_, ?_, rfl, feed_of_readByte_none hr⟩
          · rw [hb, hb₁, List.nil_append]
          · intro x more hx
            rw [hb₁] at hx
            exact absurd hx (List.cons_ne_nil x more).symm
      | some b =>
          have hbytes := bytes_of_readByte_some hr
          cases hc : range.contains b with
          | true =>
              rw [finish_of_contains hr hc] at h
              rcases ih h with ⟨tail, htail, hcont, rfl, hflow⟩ |
                ⟨met, r, left, tail, rfl, hmet, htail, hnext, hrep⟩
              · refine Or.inl ⟨b :: tail, ?_, .cons hc hcont, ?_, ?_⟩
                · rw [hbytes, htail, List.cons_append]
                · rw [scalarValue_cons]
                · exact fun _ => hflow (remaining_readByte_lt hr).2
              · refine Or.inr ⟨range :: met, r, left, b :: tail, rfl, .cons hc hmet, ?_, hnext, hrep⟩
                rw [hbytes, htail, List.cons_append]
          | false =>
              rw [finish_of_blocked hr hc] at h
              obtain ⟨rfl, rfl⟩ := Prod.mk.inj h
              refine Or.inr ⟨[], range, owed, [], rfl, .nil, ?_, ?_, rfl, Feed.noConfusion⟩
              · rw [bytes_held hr, List.nil_append]
              · intro x more hx
                rw [bytes_held hr, hbytes] at hx
                rw [← (List.cons.inj hx).1]
                exact hc

/-- A lead byte whose ranges are met opens the encoding of a character. -/
theorem decodesTo_of_continues {b : UInt8} {bits : Nat} {owed : List ByteRange}
    {tail rest : List UInt8} (hlead : Lead.ofByte b = .opening bits owed)
    (hcont : Continues owed tail) :
    DecodesTo rest (b :: tail) (Char.ofNat (scalarValue bits tail)) := by
  have he : String.utf8EncodeChar (Char.ofNat (scalarValue bits tail)) = b :: tail :=
    IsSequence.utf8EncodeChar_eq ⟨b, tail, bits, owed, rfl, hlead, hcont, rfl⟩
  rw [← he]
  exact .character _

/-- A lead byte whose ranges are met in part opens as much as could have been of an encoding. -/
theorem decodesTo_of_blocked {b : UInt8} {bits : Nat} {met left : List ByteRange} {r : ByteRange}
    {tail rest : List UInt8} (hlead : Lead.ofByte b = .opening bits (met ++ r :: left))
    (hmet : Continues met tail) (hnext : ∀ x more, rest = x :: more → r.contains x = false) :
    DecodesTo rest (b :: tail) replacementCharacter := by
  refine .truncated (List.cons_ne_nil _ _)
    (isIncomplete_cons_iff.2 ⟨bits, met, r, left, hlead, hmet⟩) ?_ ?_
  · intro c hc
    rcases encode_prefix_cons hc with ⟨hsingle, _⟩ | ⟨_, owed, tail', hlead', hcont, hpre, _⟩
    · simp [hlead] at hsingle
    · obtain ⟨rfl, rfl⟩ := Lead.opening.inj (hlead.symm.trans hlead')
      -- an encoding would meet all ranges, and there is no going on after `tail`
      have hle := hmet.length_le_of_blocked hcont List.prefix_rfl hpre hnext
      have hlen := hcont.length_eq
      have hlen' := hmet.length_eq
      simp only [List.length_append, List.length_cons] at hlen
      omega
  · intro longer hpre hinc
    cases longer with
    | nil => exact Nat.zero_le _
    | cons b' tail' =>
        obtain ⟨rfl, hpre'⟩ := List.cons_prefix_cons.1 hpre
        obtain ⟨_, met', r', left', hlead', hmet'⟩ := isIncomplete_cons_iff.1 hinc
        have howed := (Lead.opening.inj (hlead.symm.trans hlead')).2
        have hmet'pre : met' <+: met ++ r :: left := ⟨r' :: left', howed.symm⟩
        have hle := hmet.length_le_of_blocked hmet' hmet'pre hpre' hnext
        exact Nat.succ_le_succ hle

/-- A byte that announces nothing is a unit. -/
theorem decodesTo_of_illFormed {b : UInt8} {rest : List UInt8} (h : Lead.ofByte b = .illFormed) :
    DecodesTo rest [b] replacementCharacter := by
  refine .stray ?_ ?_
  · intro c hc
    rcases encode_prefix_cons hc with ⟨hlead, _⟩ | ⟨_, _, _, hlead, _⟩
    · simp [h] at hlead
    · simp [h] at hlead
  · intro part hpre hne hinc
    cases part with
    | nil => exact hne rfl
    | cons b' tail =>
        obtain ⟨rfl, _⟩ := List.cons_prefix_cons.1 hpre
        obtain ⟨_, _, _, _, hlead, _⟩ := isIncomplete_cons_iff.1 hinc
        simp [h] at hlead

/-- **Each character comes from the unit at the head of the bytes**, and the rest is left. -/
theorem decodesTo_of_next {d d' : Utf8Decoder} {c : Char} (h : d.next = (some c, d')) :
    ∃ part, d.bytes = part ++ d'.bytes ∧ DecodesTo d'.bytes part c := by
  obtain ⟨b, d₁, hr, hcases⟩ := next_cases h
  have hbytes := bytes_of_readByte_some hr
  rcases hcases with ⟨hl, rfl, rfl⟩ | ⟨hl, rfl, rfl⟩ | ⟨bits, owed, hl, hf⟩
  · refine ⟨[b], hbytes, ?_⟩
    rw [← utf8EncodeChar_of_single hl]
    exact .character _
  · exact ⟨[b], hbytes, decodesTo_of_illFormed hl⟩
  · rcases finish_cases hf with ⟨tail, htail, hcont, rfl, _⟩ |
      ⟨met, r, left, tail, rfl, hmet, htail, hnext, rfl, _⟩
    · refine ⟨b :: tail, ?_, decodesTo_of_continues hl hcont⟩
      rw [hbytes, htail, List.cons_append]
    · refine ⟨b :: tail, ?_, decodesTo_of_blocked hl hmet hnext⟩
      rw [hbytes, htail, List.cons_append]

/-- No character comes when there are no bytes, and none are left then. -/
theorem bytes_of_next_none {d d' : Utf8Decoder} (h : d.next = (none, d')) :
    d.bytes = [] ∧ d'.bytes = [] :=
  bytes_of_readByte_none (readByte_of_next_none h)

/-- **The decoder finds the characters of its bytes.** -/
theorem lossyUtf8_readAll (d : Utf8Decoder) : LossyUtf8 d.bytes (CharSource.readAll d).1 := by
  fun_induction CharSource.readAll d with
  | case1 d d' h =>
      rw [(bytes_of_next_none h).1]
      exact .nil
  | case2 d c d' h cs t hrest ih =>
      obtain ⟨part, hbytes, hunit⟩ := decodesTo_of_next h
      rw [hrest] at ih
      rw [hbytes]
      exact .unit hunit ih

end Utf8Decoder

/-- A reader of bytes delivers them, and then finds their end. -/
theorem ByteReader.contents_ofBytes (bytes : List UInt8) :
    (ofBytes bytes).contents = (bytes, none) := by
  show contentsFrom (bytes.map .byte) = (bytes, none)
  induction bytes with
  | nil => rfl
  | cons b bytes ih => simp only [List.map_cons, contentsFrom, ih]

theorem Utf8Decoder.bytes_ofBytes (bytes : List UInt8) : (ofBytes bytes).bytes = bytes :=
  congrArg Prod.fst (ByteReader.contents_ofBytes bytes)

/-- **All bytes have characters**, and they are what decoding finds. -/
theorem lossyUtf8_iff {bytes : List UInt8} {cs : List Char} :
    LossyUtf8 bytes cs ↔ cs = decodeUtf8 bytes := by
  have h : LossyUtf8 bytes (decodeUtf8 bytes) := by
    have hall := (Utf8Decoder.ofBytes bytes).lossyUtf8_readAll
    rw [Utf8Decoder.bytes_ofBytes] at hall
    exact hall
  exact ⟨fun h' => h'.unique h, fun he => he ▸ h⟩

end StreamLexer
