/-
**Lines.**

Each token is written as a line of its own, and no line feed stands inside a line.  So the lines can
be told from the bytes that they make up, their number is the number of line feeds, and an encoding
can be read back line by line.

Main definitions:

* `StreamLexer.lineFeed` — the byte at the end of a line;
* `StreamLexer.IsLine` — bytes with a line feed at the end and nowhere else;
* `StreamLexer.splitLines` — **the lines of some bytes**, without their line feeds.

Main results:

* `StreamLexer.decodeUtf8_encodeUtf8`, `StreamLexer.decodeUtf8?_encodeUtf8` — decoding undoes
  encoding;
* `StreamLexer.splitLines_flatten`, `StreamLexer.flatten_lines_injective` — **lines are told
  apart**;
* `StreamLexer.count_lineFeed_flatten` — there are as many lines as line feeds.
-/

import StreamLexer.Proofs.LossyDecoding
import StreamLexer.Text.Utf8

set_option relaxedAutoImplicit false
set_option autoImplicit false

namespace StreamLexer

/-! ### Encoding and decoding -/

/-- The characters of an encoding are those that were encoded. -/
theorem lossyUtf8_encodeUtf8 (cs : List Char) : LossyUtf8 (encodeUtf8 cs) cs := by
  induction cs with
  | nil => exact .nil
  | cons c cs ih => exact .unit (.character c) ih

/-- **Decoding undoes encoding.** -/
theorem decodeUtf8_encodeUtf8 (cs : List Char) : decodeUtf8 (encodeUtf8 cs) = cs :=
  (lossyUtf8_iff.1 (lossyUtf8_encodeUtf8 cs)).symm

theorem decodeUtf8?_encodeUtf8 (cs : List Char) : decodeUtf8? (encodeUtf8 cs) = some cs := by
  simp only [decodeUtf8?, decodeUtf8_encodeUtf8, if_true]

/-- Different texts have different encodings. -/
theorem encodeUtf8_injective {cs cs' : List Char} (h : encodeUtf8 cs = encodeUtf8 cs') :
    cs = cs' := by
  rw [← decodeUtf8_encodeUtf8 cs, h, decodeUtf8_encodeUtf8]

/-! ### Line feeds -/

/-- The byte at the end of a line. -/
def lineFeed : UInt8 := 0x0A

/-- Only a line feed has the byte in its encoding. -/
theorem eq_newline_of_lineFeed_mem {c : Char} (h : lineFeed ∈ String.utf8EncodeChar c) :
    c = '\n' := by
  rcases utf8EncodeChar_cases c with ⟨hlt, he⟩ | hsequence
  · rw [he] at h
    have hbyte := congrArg UInt8.toNat (List.mem_singleton.1 h)
    rw [UInt8.toNat_ofNat'] at hbyte
    have hval : c.val.toNat = 10 := by
      change 10 = _ at hbyte
      omega
    exact Char.ext (UInt32.toNat_inj.1 hval)
  · exact absurd (hsequence.le_of_mem h) (by decide)

theorem lineFeed_mem_encodeUtf8 {cs : List Char} (h : lineFeed ∈ encodeUtf8 cs) : '\n' ∈ cs := by
  obtain ⟨c, hc, hmem⟩ := List.mem_flatMap.1 h
  rwa [← eq_newline_of_lineFeed_mem hmem]

/-! ### Lines -/

/-- **A line**: bytes with a line feed at the end and nowhere else. -/
def IsLine (line : List UInt8) : Prop := ∃ body, line = body ++ [lineFeed] ∧ lineFeed ∉ body

/-- A text without line feeds makes a line. -/
theorem isLine_encodeUtf8 {cs : List Char} (h : '\n' ∉ cs) :
    IsLine (encodeUtf8 (cs ++ ['\n'])) := by
  refine ⟨encodeUtf8 cs, ?_, ?_⟩
  · rw [encodeUtf8_append]
    congr 1
  · intro hmem
    exact h (lineFeed_mem_encodeUtf8 hmem)

/-- **The lines of some bytes**, without their line feeds.  What comes after the last line feed is
no line. -/
def splitLines (bytes : List UInt8) : List (List UInt8) := (bytes.splitOn lineFeed).dropLast

theorem splitLines_append {body : List UInt8} (h : lineFeed ∉ body) (bytes : List UInt8) :
    splitLines (body ++ lineFeed :: bytes) = body :: splitLines bytes := by
  rw [splitLines, List.splitOn_append_cons_self_of_not_mem h,
    List.dropLast_cons_of_ne_nil (List.splitOn_ne_nil _ _), splitLines]

variable {lines lines' : List (List UInt8)}

/-- **Lines written one after another are told apart.** -/
theorem splitLines_flatten (h : ∀ line ∈ lines, IsLine line) :
    splitLines lines.flatten = lines.map List.dropLast := by
  induction lines with
  | nil => rfl
  | cons line lines ih =>
      obtain ⟨body, rfl, hbody⟩ := h line List.mem_cons_self
      have hrest := ih fun l hl => h l (List.mem_cons_of_mem _ hl)
      rw [List.flatten_cons, List.append_assoc, List.singleton_append, splitLines_append hbody,
        hrest, List.map_cons, List.dropLast_concat]

theorem map_dropLast_append (h : ∀ line ∈ lines, IsLine line) :
    (lines.map List.dropLast).map (· ++ [lineFeed]) = lines := by
  rw [List.map_map]
  refine List.map_congr_left ?_ |>.trans (List.map_id lines)
  intro line hline
  obtain ⟨body, rfl, _⟩ := h line hline
  simp

/-- **The bytes determine the lines.** -/
theorem flatten_lines_injective (h : ∀ line ∈ lines, IsLine line)
    (h' : ∀ line ∈ lines', IsLine line) (he : lines.flatten = lines'.flatten) : lines = lines' := by
  have hsplit := congrArg splitLines he
  rw [splitLines_flatten h, splitLines_flatten h'] at hsplit
  rw [← map_dropLast_append h, hsplit, map_dropLast_append h']

/-- **There are as many lines as line feeds.** -/
theorem count_lineFeed_flatten (h : ∀ line ∈ lines, IsLine line) :
    lines.flatten.count lineFeed = lines.length := by
  induction lines with
  | nil => rfl
  | cons line lines ih =>
      obtain ⟨body, rfl, hbody⟩ := h line List.mem_cons_self
      have hrest := ih fun l hl => h l (List.mem_cons_of_mem _ hl)
      rw [List.flatten_cons, List.count_append, List.count_append, hrest,
        List.count_eq_zero_of_not_mem hbody, List.length_cons]
      simp [Nat.add_comm]

end StreamLexer
