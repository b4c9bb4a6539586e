/-
**Lead bytes and continuations.**

A decoder looks at a lead byte and knows how many bytes follow and which values each may have.
That this is right is a fact about the encoding, which is defined the other way round, from the
character to its bytes: the encodings of more than one byte are exactly a lead byte followed by
bytes from the ranges that it announces.

Main definitions:

* `StreamLexer.scalarValue` — the number written by leading bits and continuation bytes;
* `StreamLexer.Continues` — bytes that lie in the ranges announced;
* `StreamLexer.IsSequence` — a lead byte and what it announces, writing a number.

Main results:

* `StreamLexer.utf8EncodeChar_cases` — every encoding is a single byte or a lead byte with bytes in
  the ranges that it announces;
* `StreamLexer.IsSequence.utf8EncodeChar_eq` — **all such bytes are encodings**.
-/

import StreamLexer.Source.Utf8Decoder
import Mathlib.Data.List.Forall2

set_option relaxedAutoImplicit false
set_option autoImplicit false

namespace StreamLexer

/-- The number `v` with the six bits of a continuation byte after it. -/
def pushContinuation (v : Nat) (b : UInt8) : Nat := 64 * v + (b.toNat - 0x80)

theorem pushContinuation_eq (v : Nat) (b : UInt8) :
    pushContinuation v b = 64 * v + (b.toNat - 0x80) := rfl

/-- The number written by leading bits and continuation bytes. -/
def scalarValue (bits : Nat) (tail : List UInt8) : Nat := tail.foldl pushContinuation bits

@[simp] theorem scalarValue_nil (bits : Nat) : scalarValue bits [] = bits := rfl

@[simp] theorem scalarValue_cons (bits : Nat) (b : UInt8) (tail : List UInt8) :
    scalarValue bits (b :: tail) = scalarValue (pushContinuation bits b) tail := by
  unfold scalarValue
  exact List.foldl_cons ..

/-- The bytes lie in the ranges, one in each. -/
def Continues (owed : List ByteRange) (tail : List UInt8) : Prop :=
  List.Forall₂ (fun r b => r.contains b = true) owed tail

/-! ### The ranges -/

theorem ByteRange.contains_iff {r : ByteRange} {b : UInt8} :
    r.contains b = true ↔ r.low ≤ b.toNat ∧ b.toNat ≤ r.high := by
  simp [contains]

theorem ByteRange.contains_continuation_iff {b : UInt8} :
    continuation.contains b = true ↔ 0x80 ≤ b.toNat ∧ b.toNat ≤ 0xBF :=
  contains_iff

/-- The second byte is a continuation byte, and after four lead bytes it is limited further. -/
theorem ByteRange.contains_second_iff {n : Nat} {b : UInt8} :
    (second n).contains b = true ↔ (0x80 ≤ b.toNat ∧ b.toNat ≤ 0xBF) ∧
      (n = 0xE0 → 0xA0 ≤ b.toNat) ∧ (n = 0xED → b.toNat ≤ 0x9F) ∧
      (n = 0xF0 → 0x90 ≤ b.toNat) ∧ (n = 0xF4 → b.toNat ≤ 0x8F) := by
  rw [contains_iff]
  unfold second continuation
  split
  · simp only; omega
  split
  · simp only; omega
  split
  · simp only; omega
  split
  · simp only; omega
  · simp only; omega

/-! ### Lead bytes -/

namespace Lead

theorem ofByte_of_lt {b : UInt8} (h : b.toNat < 0x80) : ofByte b = .single := by
  simp only [ofByte]
  rw [if_pos h]

theorem ofByte_two {b : UInt8} (h : 0xC2 ≤ b.toNat) (h' : b.toNat < 0xE0) :
    ofByte b = .opening (b.toNat - 0xC0) [.continuation] := by
  simp only [ofByte]
  rw [if_neg (by omega), if_neg (by omega), if_pos h']

theorem ofByte_three {b : UInt8} (h : 0xE0 ≤ b.toNat) (h' : b.toNat < 0xF0) :
    ofByte b = .opening (b.toNat - 0xE0) [.second b.toNat, .continuation] := by
  simp only [ofByte]
  rw [if_neg (by omega), if_neg (by omega), if_neg (by omega), if_pos h']

theorem ofByte_four {b : UInt8} (h : 0xF0 ≤ b.toNat) (h' : b.toNat < 0xF5) :
    ofByte b = .opening (b.toNat - 0xF0) [.second b.toNat, .continuation, .continuation] := by
  simp only [ofByte]
  rw [if_neg (by omega), if_neg (by omega), if_neg (by omega), if_neg (by omega), if_pos h']

theorem lt_of_ofByte_single {b : UInt8} (h : ofByte b = .single) : b.toNat < 0x80 := by
  by_contra hb
  simp only [ofByte] at h
  rw [if_neg hb] at h
  split at h
  · simp at h
  split at h
  · simp at h
  split at h
  · simp at h
  split at h
  · simp at h
  · simp at h

/-- A byte that announces others is one of three kinds. -/
theorem ofByte_eq_opening {b : UInt8} {bits : Nat} {owed : List ByteRange}
    (h : ofByte b = .opening bits owed) :
    (0xC2 ≤ b.toNat ∧ b.toNat < 0xE0 ∧ bits = b.toNat - 0xC0 ∧ owed = [.continuation]) ∨
      (0xE0 ≤ b.toNat ∧ b.toNat < 0xF0 ∧ bits = b.toNat - 0xE0 ∧
        owed = [.second b.toNat, .continuation]) ∨
      (0xF0 ≤ b.toNat ∧ b.toNat < 0xF5 ∧ bits = b.toNat - 0xF0 ∧
        owed = [.second b.toNat, .continuation, .continuation]) := by
  simp only [ofByte] at h
  split at h
  · simp at h
  split at h
  · simp at h
  split at h
  · obtain ⟨rfl, rfl⟩ := Lead.opening.inj h
    exact Or.inl ⟨by omega, by omega, rfl, rfl⟩
  split at h
  · obtain ⟨rfl, rfl⟩ := Lead.opening.inj h
    exact Or.inr (Or.inl ⟨by omega, by omega, rfl, rfl⟩)
  split at h
  · obtain ⟨rfl, rfl⟩ := Lead.opening.inj h
    exact Or.inr (Or.inr ⟨by omega, by omega, rfl, rfl⟩)
  · simp at h

end Lead

/-! ### From a character to its bytes -/

theorem toNat_val_ofNat {n : Nat} (h : n.isValidChar) : (Char.ofNat n).val.toNat = n := by
  rw [Char.ofNat, dif_pos h]
  rfl

/-- A character is written by leading bits and continuation bytes after a lead byte. -/
def IsSequence (v : Nat) (bytes : List UInt8) : Prop :=
  ∃ b tail bits owed, bytes = b :: tail ∧ Lead.ofByte b = .opening bits owed ∧
    Continues owed tail ∧ scalarValue bits tail = v

theorem isSequence_two {v : Nat} (h : 0x80 ≤ v) (h' : v ≤ 0x7FF) :
    IsSequence v [UInt8.ofNat (v / 64 % 0x20 + 0xC0), UInt8.ofNat (v % 0x40 + 0x80)] := by
  have hlead : (UInt8.ofNat (v / 64 % 0x20 + 0xC0)).toNat = v / 64 + 0xC0 := by
    rw [UInt8.toNat_ofNat']; omega
  have hlast : (UInt8.ofNat (v % 0x40 + 0x80)).toNat = v % 64 + 0x80 := by
    rw [UInt8.toNat_ofNat']; omega
  refine ⟨_, _, _, _, rfl, Lead.ofByte_two (by omega) (by omega), ?_, ?_⟩
  · refine .cons (ByteRange.contains_continuation_iff.2 ?_) .nil
    omega
  · simp only [scalarValue_cons, scalarValue_nil, pushContinuation_eq, hlead, hlast]
    omega

theorem isSequence_three {v : Nat} (h : 0x800 ≤ v) (h' : v ≤ 0xFFFF)
    (hs : v < 0xD800 ∨ 0xDFFF < v) :
    IsSequence v [UInt8.ofNat (v / 4096 % 0x10 + 0xE0), UInt8.ofNat (v / 64 % 0x40 + 0x80),
      UInt8.ofNat (v % 0x40 + 0x80)] := by
  have hlead : (UInt8.ofNat (v / 4096 % 0x10 + 0xE0)).toNat = v / 4096 + 0xE0 := by
    rw [UInt8.toNat_ofNat']; omega
  have hsecond : (UInt8.ofNat (v / 64 % 0x40 + 0x80)).toNat = v / 64 % 64 + 0x80 := by
    rw [UInt8.toNat_ofNat']; omega
  have hlast : (UInt8.ofNat (v % 0x40 + 0x80)).toNat = v % 64 + 0x80 := by
    rw [UInt8.toNat_ofNat']; omega
  refine ⟨_, _, _, _, rfl, Lead.ofByte_three (by omega) (by omega), ?_, ?_⟩
  · refine .cons (ByteRange.contains_second_iff.2 ?_)
      (.cons (ByteRange.contains_continuation_iff.2 ?_) .nil)
    · omega
    · omega
  · simp only [scalarValue_cons, scalarValue_nil, pushContinuation_eq, hlead, hsecond, hlast]
    omega

theorem isSequence_four {v : Nat} (h : 0x10000 ≤ v) (h' : v < 0x110000) :
    IsSequence v [UInt8.ofNat (v / 262144 % 0x08 + 0xF0), UInt8.ofNat (v / 4096 % 0x40 + 0x80),
      UInt8.ofNat (v / 64 % 0x40 + 0x80), UInt8.ofNat (v % 0x40 + 0x80)] := by
  have hlead : (UInt8.ofNat (v / 262144 % 0x08 + 0xF0)).toNat = v / 262144 + 0xF0 := by
    rw [UInt8.toNat_ofNat']; omega
  have hsecond : (UInt8.ofNat (v / 4096 % 0x40 + 0x80)).toNat = v / 4096 % 64 + 0x80 := by
    rw [UInt8.toNat_ofNat']; omega
  have hthird : (UInt8.ofNat (v / 64 % 0x40 + 0x80)).toNat = v / 64 % 64 + 0x80 := by
    rw [UInt8.toNat_ofNat']; omega
  have hlast : (UInt8.ofNat (v % 0x40 + 0x80)).toNat = v % 64 + 0x80 := by
    rw [UInt8.toNat_ofNat']; omega
  refine ⟨_, _, _, _, rfl, Lead.ofByte_four (by omega) (by omega), ?_, ?_⟩
  · refine .cons (ByteRange.contains_second_iff.2 ?_)
      (.cons (ByteRange.contains_continuation_iff.2 ?_)
        (.cons (ByteRange.contains_continuation_iff.2 ?_) .nil))
    · omega
    · omega
    · omega
  · simp only [scalarValue_cons, scalarValue_nil, pushContinuation_eq, hlead, hsecond, hthird, hlast]
    omega

/-- **Every encoding** is a single byte, or a lead byte with bytes in the ranges that it
announces. -/
theorem utf8EncodeChar_cases (c : Char) :
    (c.val.toNat < 0x80 ∧ String.utf8EncodeChar c = [UInt8.ofNat c.val.toNat]) ∨
      IsSequence c.val.toNat (String.utf8EncodeChar c) := by
  have hvalid : c.val.toNat < 0xD800 ∨ (0xDFFF < c.val.toNat ∧ c.val.toNat < 0x110000) := c.valid
  unfold String.utf8EncodeChar
  simp only
  by_cases h1 : c.val.toNat ≤ 0x7F
  · exact Or.inl ⟨by omega, by rw [if_pos h1]⟩
  by_cases h2 : c.val.toNat ≤ 0x7FF
  · rw [if_neg h1, if_pos h2]
    exact Or.inr (isSequence_two (by omega) h2)
  by_cases h3 : c.val.toNat ≤ 0xFFFF
  · rw [if_neg h1, if_neg h2, if_pos h3]
    exact Or.inr (isSequence_three (by omega) h3 (by omega))
  · rw [if_neg h1, if_neg h2, if_neg h3]
    exact Or.inr (isSequence_four (by omega) (by omega))

/-! ### From bytes to a character -/

theorem ofNat_eq_of_toNat {b : UInt8} {n : Nat} (h : n % 256 = b.toNat) : UInt8.ofNat n = b := by
  rw [← UInt8.toNat_inj, UInt8.toNat_ofNat']
  exact h

/-- A sequence writes a number that no shorter sequence writes, and its bytes are those of the
number. -/
theorem IsSequence.eq {v : Nat} {bytes : List UInt8} (h : IsSequence v bytes) :
    (0x80 ≤ v ∧ v ≤ 0x7FF ∧
        bytes = [UInt8.ofNat (v / 64 % 0x20 + 0xC0), UInt8.ofNat (v % 0x40 + 0x80)]) ∨
      (0x800 ≤ v ∧ v ≤ 0xFFFF ∧ (v < 0xD800 ∨ 0xDFFF < v) ∧
        bytes = [UInt8.ofNat (v / 4096 % 0x10 + 0xE0), UInt8.ofNat (v / 64 % 0x40 + 0x80),
          UInt8.ofNat (v % 0x40 + 0x80)]) ∨
      (0x10000 ≤ v ∧ v < 0x110000 ∧
        bytes = [UInt8.ofNat (v / 262144 % 0x08 + 0xF0), UInt8.ofNat (v / 4096 % 0x40 + 0x80),
          UInt8.ofNat (v / 64 % 0x40 + 0x80), UInt8.ofNat (v % 0x40 + 0x80)]) := by
  obtain ⟨b, tail, bits, owed, rfl, hlead, hcont, hv⟩ := h
  rcases Lead.ofByte_eq_opening hlead with ⟨hlo, hhi, hbits, rfl⟩ |
    ⟨hlo, hhi, hbits, rfl⟩ | ⟨hlo, hhi, hbits, rfl⟩
  · obtain ⟨b₁, _, h₁, hnil, rfl⟩ := List.forall₂_cons_left_iff.1 hcont
    obtain rfl := List.forall₂_nil_left_iff.1 hnil
    rw [ByteRange.contains_continuation_iff] at h₁
    simp only [scalarValue_cons, scalarValue_nil, pushContinuation_eq] at hv
    refine Or.inl ⟨by omega, by omega, ?_⟩
    rw [ofNat_eq_of_toNat (b := b) (by omega), ofNat_eq_of_toNat (b := b₁) (by omega)]
  · obtain ⟨b₁, _, h₁, hcons, rfl⟩ := List.forall₂_cons_left_iff.1 hcont
    obtain ⟨b₂, _, h₂, hnil, rfl⟩ := List.forall₂_cons_left_iff.1 hcons
    obtain rfl := List.forall₂_nil_left_iff.1 hnil
    rw [ByteRange.contains_second_iff] at h₁
    rw [ByteRange.contains_continuation_iff] at h₂
    simp only [scalarValue_cons, scalarValue_nil, pushContinuation_eq] at hv
    refine Or.inr (Or.inl ⟨by omega, by omega, by omega, ?_⟩)
    rw [ofNat_eq_of_toNat (b := b) (by omega), ofNat_eq_of_toNat (b := b₁) (by omega),
      ofNat_eq_of_toNat (b := b₂) (by omega)]
  · obtain ⟨b₁, _, h₁, hcons, rfl⟩ := List.forall₂_cons_left_iff.1 hcont
    obtain ⟨b₂, _, h₂, hlast, rfl⟩ := List.forall₂_cons_left_iff.1 hcons
    obtain ⟨b₃, _, h₃, hnil, rfl⟩ := List.forall₂_cons_left_iff.1 hlast
    obtain rfl := List.forall₂_nil_left_iff.1 hnil
    rw [ByteRange.contains_second_iff] at h₁
    rw [ByteRange.contains_continuation_iff] at h₂ h₃
    simp only [scalarValue_cons, scalarValue_nil, pushContinuation_eq] at hv
    refine Or.inr (Or.inr ⟨by omega, by omega, ?_⟩)
    rw [ofNat_eq_of_toNat (b := b) (by omega), ofNat_eq_of_toNat (b := b₁) (by omega),
      ofNat_eq_of_toNat (b := b₂) (by omega), ofNat_eq_of_toNat (b := b₃) (by omega)]

/-- **Every sequence of leading bits and continuation bytes is the encoding of a character.** -/
theorem IsSequence.utf8EncodeChar_eq {v : Nat} {bytes : List UInt8} (h : IsSequence v bytes) :
    String.utf8EncodeChar (Char.ofNat v) = bytes := by
  have hvalid : v.isValidChar := by
    rcases h.eq with ⟨_, _, _⟩ | ⟨_, _, _, _⟩ | ⟨_, _, _⟩
    · exact Or.inl (by omega)
    · rcases ‹v < 0xD800 ∨ 0xDFFF < v› with hs | hs
      · exact Or.inl hs
      · exact Or.inr ⟨hs, by omega⟩
    · exact Or.inr ⟨by omega, by omega⟩
  unfold String.utf8EncodeChar
  simp only [toNat_val_ofNat hvalid]
  rcases h.eq with ⟨h1, h2, rfl⟩ | ⟨h1, h2, _, rfl⟩ | ⟨h1, h2, rfl⟩
  · rw [if_neg (by omega), if_pos h2]
  · rw [if_neg (by omega), if_neg (by omega), if_pos h2]
  · rw [if_neg (by omega), if_neg (by omega), if_neg (by omega)]

/-- A byte that is a character by itself is its encoding. -/
theorem utf8EncodeChar_of_single {b : UInt8} (h : Lead.ofByte b = .single) :
    String.utf8EncodeChar (Char.ofNat b.toNat) = [b] := by
  have hb : b.toNat < 0x80 := Lead.lt_of_ofByte_single h
  have hvalid : b.toNat.isValidChar := Or.inl (by omega)
  unfold String.utf8EncodeChar
  simp only [toNat_val_ofNat hvalid]
  rw [if_pos (by omega), UInt8.ofNat_toNat]

/-- The bytes of a longer encoding are none of ASCII. -/
theorem IsSequence.le_of_mem {v : Nat} {bytes : List UInt8} (h : IsSequence v bytes) {b : UInt8}
    (hb : b ∈ bytes) : 0x80 ≤ b.toNat := by
  have hbyte : ∀ n, 0x80 ≤ (UInt8.ofNat (n % 0x40 + 0x80)).toNat := by
    intro n
    rw [UInt8.toNat_ofNat']
    omega
  rcases h.eq with ⟨_, _, rfl⟩ | ⟨_, _, _, rfl⟩ | ⟨_, _, rfl⟩
  · have hlead : 0x80 ≤ (UInt8.ofNat (v / 64 % 0x20 + 0xC0)).toNat := by
      rw [UInt8.toNat_ofNat']
      omega
    simp only [List.mem_cons, List.not_mem_nil, or_false] at hb
    rcases hb with rfl | rfl
    · exact hlead
    · exact hbyte _
  · have hlead : 0x80 ≤ (UInt8.ofNat (v / 4096 % 0x10 + 0xE0)).toNat := by
      rw [UInt8.toNat_ofNat']
      omega
    simp only [List.mem_cons, List.not_mem_nil, or_false] at hb
    rcases hb with rfl | rfl | rfl
    · exact hlead
    · exact hbyte _
    · exact hbyte _
  · have hlead : 0x80 ≤ (UInt8.ofNat (v / 262144 % 0x08 + 0xF0)).toNat := by
      rw [UInt8.toNat_ofNat']
      omega
    simp only [List.mem_cons, List.not_mem_nil, or_false] at hb
    rcases hb with rfl | rfl | rfl | rfl
    · exact hlead
    · exact hbyte _
    · exact hbyte _
    · exact hbyte _

end StreamLexer
