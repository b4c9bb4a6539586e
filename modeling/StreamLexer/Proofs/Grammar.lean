/-
**The lexical grammar.**

A text falls into segments: single whitespace characters, comments, words, numbers and symbols.
Whether some characters are a segment depends on what follows them: a word or a number goes on for
as long as it can, a slash is a symbol only where no comment starts, and only at the end of the
text may a comment be left open.  The grammar is stated by itself, without the scanner; that there
is exactly one way to divide a text into segments is a fact about the grammar.

Main definitions:

* `StreamLexer.FirstOccurrence` — where a pattern occurs for the first time;
* `StreamLexer.Grammar.Whitespace`, `StreamLexer.Grammar.Letter`, `StreamLexer.Grammar.Digit`,
  `StreamLexer.Grammar.LineEnd` — the classes of characters;
* `StreamLexer.Segment`, `StreamLexer.Segment.FitsBefore` — segments, and **what each may be, given
  what follows**;
* `StreamLexer.Segmentation` — a text divided into segments.

Main results:

* `StreamLexer.Segment.FitsBefore.unique` — a text has at most one first segment;
* `StreamLexer.Segment.exists_fitsBefore` — a text that is not empty has one;
* `StreamLexer.Segmentation.existsUnique` — **every text has exactly one segmentation**.
-/

import Mathlib.Data.List.Infix

set_option relaxedAutoImplicit false
set_option autoImplicit false

namespace StreamLexer

/-! ### The first occurrence of a pattern -/

/-- The pattern `p` occurs in `cs` between `before` and `after`, and nowhere earlier. -/
def FirstOccurrence (p cs before after : List Char) : Prop :=
  cs = before ++ p ++ after ∧
    ∀ before' after', cs = before' ++ p ++ after' → before.length ≤ before'.length

theorem FirstOccurrence.infix {p cs before after : List Char}
    (h : FirstOccurrence p cs before after) : p <:+: cs :=
  ⟨before, after, h.1.symm⟩

/-- Where a pattern occurs, it occurs for the first time somewhere. -/
theorem exists_firstOccurrence {p cs : List Char} (h : p <:+: cs) :
    ∃ before after, FirstOccurrence p cs before after := by
  obtain ⟨before, after, hcs⟩ := h
  -- on the length of what precedes: an earlier occurrence has less before it
  induction hn : before.length using Nat.strong_induction_on generalizing before after with
  | _ n ih =>
      by_cases he : ∃ before' after', cs = before' ++ p ++ after' ∧ before'.length < n
      · obtain ⟨before', after', hcs', hlt⟩ := he
        exact ih _ hlt before' after' hcs'.symm rfl
      · refine ⟨before, after, hcs.symm, ?_⟩
        intro before' after' hcs'
        by_contra hlt
        exact he ⟨before', after', hcs', by omega⟩

/-- There is only one first occurrence. -/
theorem FirstOccurrence.unique {p cs before after before' after' : List Char}
    (h : FirstOccurrence p cs before after) (h' : FirstOccurrence p cs before' after') :
    before = before' ∧ after = after' := by
  have hlen : before.length = before'.length :=
    Nat.le_antisymm (h.2 _ _ h'.1) (h'.2 _ _ h.1)
  have heq : before ++ (p ++ after) = before' ++ (p ++ after') := by
    rw [← List.append_assoc, ← List.append_assoc, ← h.1, ← h'.1]
  obtain ⟨hb, hpa⟩ := List.append_inj heq hlen
  exact ⟨hb, List.append_cancel_left hpa⟩

/-- The first occurrence stays the first when the text ends with it. -/
theorem FirstOccurrence.of_append_right {p cs before after : List Char}
    (h : FirstOccurrence p cs before after) :
    FirstOccurrence p (before ++ p) before [] := by
  refine ⟨(List.append_nil _).symm, ?_⟩
  intro before' after' heq
  refine h.2 before' (after' ++ after) ?_
  rw [h.1, heq, List.append_assoc]

/-! ### The classes of characters -/

namespace Grammar

/-- Space, tab, line feed, carriage return, form feed and vertical tab. -/
def Whitespace (c : Char) : Prop := c ∈ [' ', '\t', '\n', '\r', '\x0c', '\x0b']

/-- The letters of ASCII. -/
def Letter (c : Char) : Prop := ('a' ≤ c ∧ c ≤ 'z') ∨ ('A' ≤ c ∧ c ≤ 'Z')

/-- The digits of ASCII. -/
def Digit (c : Char) : Prop := '0' ≤ c ∧ c ≤ '9'

/-- What a word goes on with. -/
def WordPart (c : Char) : Prop := Letter c ∨ Digit c

/-- What a number is made of: digits and points in any arrangement. -/
def NumberPart (c : Char) : Prop := Digit c ∨ c = '.'

/-- Line feed and carriage return. -/
def LineEnd (c : Char) : Prop := c = '\n' ∨ c = '\r'

instance : DecidablePred Whitespace := fun c => inferInstanceAs (Decidable (c ∈ [_, _, _, _, _, _]))

instance : DecidablePred Letter := fun _ => inferInstanceAs (Decidable (_ ∨ _))

instance : DecidablePred Digit := fun _ => inferInstanceAs (Decidable (_ ∧ _))

instance : DecidablePred WordPart := fun _ => inferInstanceAs (Decidable (_ ∨ _))

instance : DecidablePred NumberPart := fun _ => inferInstanceAs (Decidable (_ ∨ _))

instance : DecidablePred LineEnd := fun _ => inferInstanceAs (Decidable (_ ∨ _))

theorem Whitespace.not_letter {c : Char} (h : Whitespace c) : ¬ Letter c := by
  simp only [Whitespace, List.mem_cons, List.not_mem_nil, or_false] at h
  rcases h with rfl | rfl | rfl | rfl | rfl | rfl <;> decide

theorem Whitespace.not_numberPart {c : Char} (h : Whitespace c) : ¬ NumberPart c := by
  simp only [Whitespace, List.mem_cons, List.not_mem_nil, or_false] at h
  rcases h with rfl | rfl | rfl | rfl | rfl | rfl <;> decide

theorem Letter.not_numberPart {c : Char} (h : Letter c) : ¬ NumberPart c := by
  rintro (hd | rfl)
  · simp only [Letter, Digit, Char.le_def, UInt32.le_iff_toNat_le] at h hd
    have hd' : c.val.toNat ≤ 57 := hd.2
    rcases h with ⟨h, _⟩ | ⟨h, _⟩
    · have hl : 97 ≤ c.val.toNat := h
      omega
    · have hl : 65 ≤ c.val.toNat := h
      omega
  · exact absurd h (by decide)

/-- A slash is in none of the classes. -/
theorem slash_plain : ¬ Whitespace '/' ∧ ¬ Letter '/' ∧ ¬ NumberPart '/' := by decide

end Grammar

/-! ### Segments -/

open Grammar

/-- The kinds of segments. -/
inductive SegmentKind where
  | whitespace | lineComment | blockComment | word | number | symbol
deriving DecidableEq, Repr

/-- Some characters of a text, and what they are. -/
structure Segment where
  kind : SegmentKind
  text : List Char
deriving DecidableEq, Repr

namespace Segment

/-- The two characters that close a block comment. -/
def blockEnd : List Char := ['*', '/']

/-- **The segments that may stand before `rest`.** -/
inductive FitsBefore (rest : List Char) : Segment → Prop
  | whitespace {c : Char} : Whitespace c → FitsBefore rest ⟨.whitespace, [c]⟩
  | lineComment {body : List Char} {e : Char} : (∀ d ∈ body, ¬ LineEnd d) → LineEnd e →
      FitsBefore rest ⟨.lineComment, '/' :: '/' :: (body ++ [e])⟩
  /-- The last line needs no end. -/
  | openLineComment {body : List Char} : (∀ d ∈ body, ¬ LineEnd d) → rest = [] →
      FitsBefore rest ⟨.lineComment, '/' :: '/' :: body⟩
  /-- The body ends with its first closing; the star of the opening is no part of one. -/
  | blockComment {body before : List Char} : FirstOccurrence blockEnd body before [] →
      FitsBefore rest ⟨.blockComment, '/' :: '*' :: body⟩
  | openBlockComment {body : List Char} : ¬ blockEnd <:+: body → rest = [] →
      FitsBefore rest ⟨.blockComment, '/' :: '*' :: body⟩
  | word {c : Char} {cs : List Char} : Letter c → (∀ d ∈ cs, WordPart d) →
      (∀ d ∈ rest.head?, ¬ WordPart d) → FitsBefore rest ⟨.word, c :: cs⟩
  | number {c : Char} {cs : List Char} : NumberPart c → (∀ d ∈ cs, NumberPart d) →
      (∀ d ∈ rest.head?, ¬ NumberPart d) → FitsBefore rest ⟨.number, c :: cs⟩
  | symbol {c : Char} : ¬ Whitespace c → ¬ Letter c → ¬ NumberPart c →
      (c = '/' → ∀ d ∈ rest.head?, d ≠ '/' ∧ d ≠ '*') → FitsBefore rest ⟨.symbol, [c]⟩

theorem FitsBefore.text_ne_nil {rest : List Char} {seg : Segment} (h : seg.FitsBefore rest) :
    seg.text ≠ [] := by
  cases h <;> simp

/-! ### The first segment of a text is determined -/

/-- The kind of the segment at the head of a text: its first two characters tell. -/
def kindAt (cs : List Char) : SegmentKind :=
  match cs with
  | [] => .symbol
  | c :: cs =>
      if Whitespace c then .whitespace
      else if Letter c then .word
      else if NumberPart c then .number
      else if c = '/' ∧ cs.head? = some '/' then .lineComment
      else if c = '/' ∧ cs.head? = some '*' then .blockComment
      else .symbol

theorem FitsBefore.kindAt_eq {rest : List Char} {seg : Segment} (h : seg.FitsBefore rest) :
    kindAt (seg.text ++ rest) = seg.kind := by
  cases h with
  | whitespace hc => simp [kindAt, hc]
  | lineComment _ _ => simp [kindAt, slash_plain]
  | openLineComment _ _ => simp [kindAt, slash_plain]
  | blockComment _ => simp [kindAt, slash_plain]
  | openBlockComment _ _ => simp [kindAt, slash_plain]
  | @word c _ hc _ _ =>
      have hw : ¬ Whitespace c := fun h => h.not_letter hc
      simp [kindAt, hc, hw]
  | @number c _ hc _ _ =>
      have hw : ¬ Whitespace c := fun h => h.not_numberPart hc
      have hl : ¬ Letter c := fun h => h.not_numberPart hc
      simp [kindAt, hc, hw, hl]
  | @symbol c hw hl hn hs =>
      have h1 : ¬ (c = '/' ∧ rest.head? = some '/') := fun h => (hs h.1 '/' h.2).1 rfl
      have h2 : ¬ (c = '/' ∧ rest.head? = some '*') := fun h => (hs h.1 '*' h.2).2 rfl
      simp [kindAt, hw, hl, hn, h1, h2]

/-- Of two segments of one kind at the head of the same text, the second does not go on where the
first ends. -/
theorem FitsBefore.not_longer {seg seg' : Segment} {d : Char} {more rest rest' : List Char}
    (h : seg.FitsBefore rest) (h' : seg'.FitsBefore rest') (hk : seg.kind = seg'.kind)
    (ht : seg'.text = seg.text ++ d :: more) (hr : rest = d :: (more ++ rest')) : False := by
  have hd : d ∈ rest.head? := by rw [hr]; rfl
  cases h with
  | openLineComment _ h0 => rw [h0] at hr; simp at hr
  | openBlockComment _ h0 => rw [h0] at hr; simp at hr
  | whitespace _ =>
      cases h' with
      | whitespace _ => simp at ht
      | _ => cases hk
  | symbol _ _ _ _ =>
      cases h' with
      | symbol _ _ _ _ => simp at ht
      | _ => cases hk
  | word _ _ hstop =>
      cases h' with
      | word _ hall _ => exact hstop d hd (hall d (by rw [(List.cons.inj ht).2]; simp))
      | _ => cases hk
  | number _ _ hstop =>
      cases h' with
      | number _ hall _ => exact hstop d hd (hall d (by rw [(List.cons.inj ht).2]; simp))
      | _ => cases hk
  | @lineComment body e _ he =>
      -- the line end of the first would be a character of the body of the second
      cases h' with
      | @lineComment body' e' hbody' _ =>
          have hb : body' ++ [e'] = body ++ e :: d :: more := by simpa using ht
          have hinit : body' = body ++ e :: (d :: more).dropLast := by
            simpa using congrArg List.dropLast hb
          exact hbody' e (by rw [hinit]; simp) he
      | @openLineComment body' hbody' _ =>
          have hb : body' = body ++ e :: d :: more := by simpa using ht
          exact hbody' e (by rw [hb]; simp) he
      | _ => cases hk
  | @blockComment body before hfirst =>
      -- the closing of the first would be an earlier closing of the second
      cases h' with
      | @blockComment body' before' hfirst' =>
          have hb : body' = body ++ d :: more := by simpa using ht
          have hle : before'.length ≤ before.length :=
            hfirst'.2 before (d :: more) (by rw [hb, hfirst.1, List.append_nil])
          have hlen := congrArg List.length (hfirst'.1.symm.trans hb)
          simp only [hfirst.1, List.length_append, List.length_cons, List.length_nil] at hlen
          omega
      | @openBlockComment body' hnot _ =>
          have hb : body' = body ++ d :: more := by simpa using ht
          exact hnot (hb ▸ hfirst.infix.trans (List.prefix_append _ _).isInfix)
      | _ => cases hk

/-- **A text has at most one first segment.** -/
theorem FitsBefore.unique {seg seg' : Segment} {rest rest' : List Char}
    (h : seg.FitsBefore rest) (h' : seg'.FitsBefore rest')
    (heq : seg.text ++ rest = seg'.text ++ rest') : seg = seg' ∧ rest = rest' := by
  have hk : seg.kind = seg'.kind := by rw [← h.kindAt_eq, ← h'.kindAt_eq, heq]
  have htext : seg.text = seg'.text := by
    rcases List.append_eq_append_iff.1 heq with ⟨more, ht, hr⟩ | ⟨more, ht, hr⟩
    · cases more with
      | nil => simpa using ht.symm
      | cons d more => exact (h.not_longer h' hk ht hr).elim
    · cases more with
      | nil => simpa using ht
      | cons d more => exact (h'.not_longer h hk.symm ht hr).elim
  obtain ⟨kind, text⟩ := seg
  obtain ⟨kind', text'⟩ := seg'
  obtain rfl : kind = kind' := hk
  obtain rfl : text = text' := htext
  exact ⟨rfl, List.append_cancel_left heq⟩

/-! ### Every text has a first segment -/

/-- The longest part at the head of a text whose characters all satisfy `p`. -/
theorem exists_span (p : Char → Prop) [DecidablePred p] (cs : List Char) :
    ∃ part rest, part ++ rest = cs ∧ (∀ d ∈ part, p d) ∧ ∀ d ∈ rest.head?, ¬ p d := by
  induction cs with
  | nil => exact ⟨[], [], rfl, by simp, by simp⟩
  | cons c cs ih =>
      by_cases hc : p c
      · obtain ⟨part, rest, rfl, hpart, hrest⟩ := ih
        exact ⟨c :: part, rest, rfl, by simpa [hc] using hpart, hrest⟩
      · exact ⟨[], c :: cs, rfl, by simp, by simpa using hc⟩

/-- After two slashes there is a line comment. -/
theorem exists_lineComment (cs : List Char) : ∃ (seg : Segment) (rest : List Char),
    seg.text ++ rest = '/' :: '/' :: cs ∧ seg.FitsBefore rest := by
  obtain ⟨body, rest, rfl, hbody, hrest⟩ := exists_span (fun d => ¬ LineEnd d) cs
  cases rest with
  | nil => exact ⟨_, [], by simp, .openLineComment hbody rfl⟩
  | cons e rest =>
      have he : LineEnd e := by simpa using hrest
      exact ⟨_, rest, by simp, .lineComment hbody he⟩

/-- After a slash and a star there is a block comment. -/
theorem exists_blockComment (cs : List Char) : ∃ (seg : Segment) (rest : List Char),
    seg.text ++ rest = '/' :: '*' :: cs ∧ seg.FitsBefore rest := by
  by_cases h : blockEnd <:+: cs
  · obtain ⟨before, rest, hfirst⟩ := exists_firstOccurrence h
    have hclose := hfirst.of_append_right
    exact ⟨⟨.blockComment, '/' :: '*' :: (before ++ blockEnd)⟩, rest, by simp [hfirst.1],
      .blockComment hclose⟩
  · exact ⟨⟨.blockComment, '/' :: '*' :: cs⟩, [], by simp, .openBlockComment h rfl⟩

/-- **A text that is not empty has a first segment.** -/
theorem exists_fitsBefore (c : Char) (cs : List Char) :
    ∃ (seg : Segment) (rest : List Char), seg.text ++ rest = c :: cs ∧ seg.FitsBefore rest := by
  by_cases hw : Whitespace c
  · exact ⟨⟨.whitespace, [c]⟩, cs, rfl, .whitespace hw⟩
  by_cases hl : Letter c
  · obtain ⟨part, rest, rfl, hpart, hrest⟩ := exists_span WordPart cs
    exact ⟨⟨.word, c :: part⟩, rest, rfl, .word hl hpart hrest⟩
  by_cases hn : NumberPart c
  · obtain ⟨part, rest, rfl, hpart, hrest⟩ := exists_span NumberPart cs
    exact ⟨⟨.number, c :: part⟩, rest, rfl, .number hn hpart hrest⟩
  by_cases hs : c = '/' ∧ (cs.head? = some '/' ∨ cs.head? = some '*')
  · obtain ⟨rfl, h | h⟩ := hs
    · obtain ⟨more, rfl⟩ := List.head?_eq_some_iff.1 h
      exact exists_lineComment more
    · obtain ⟨more, rfl⟩ := List.head?_eq_some_iff.1 h
      exact exists_blockComment more
  · refine ⟨⟨.symbol, [c]⟩, cs, rfl, .symbol hw hl hn ?_⟩
    intro hc d hd
    exact ⟨fun he => hs ⟨hc, Or.inl (he ▸ hd)⟩, fun he => hs ⟨hc, Or.inr (he ▸ hd)⟩⟩

end Segment

/-! ### Segmentations -/

/-- A text divided into segments, each of which may stand before those that follow. -/
inductive Segmentation : List Char → List Segment → Prop
  | nil : Segmentation [] []
  | cons {seg : Segment} {rest : List Char} {segs : List Segment} : seg.FitsBefore rest →
      Segmentation rest segs → Segmentation (seg.text ++ rest) (seg :: segs)

namespace Segmentation

/-- Nothing of the text is lost. -/
theorem flatMap_text {cs : List Char} {segs : List Segment} (h : Segmentation cs segs) :
    segs.flatMap Segment.text = cs := by
  induction h with
  | nil => rfl
  | cons _ _ ih => rw [List.flatMap_cons, ih]

theorem text_ne_nil {cs : List Char} {segs : List Segment} (h : Segmentation cs segs) :
    ∀ seg ∈ segs, seg.text ≠ [] := by
  induction h with
  | nil => simp
  | cons hf _ ih => simpa using ⟨hf.text_ne_nil, ih⟩

theorem unique {cs : List Char} {segs segs' : List Segment} (h : Segmentation cs segs)
    (h' : Segmentation cs segs') : segs = segs' := by
  induction h generalizing segs' with
  | nil =>
      generalize hcs : ([] : List Char) = cs at h'
      cases h' with
      | nil => rfl
      | cons hf _ => exact absurd (List.append_eq_nil_iff.1 hcs.symm).1 hf.text_ne_nil
  | @cons seg rest segs hf _ ih =>
      generalize hcs : seg.text ++ rest = cs at h'
      cases h' with
      | nil => exact absurd (List.append_eq_nil_iff.1 hcs).1 hf.text_ne_nil
      | cons hf' hs' =>
          obtain ⟨rfl, rfl⟩ := hf.unique hf' hcs
          rw [ih hs']

theorem exists_of_text (cs : List Char) : ∃ segs, Segmentation cs segs := by
  induction hn : cs.length using Nat.strong_induction_on generalizing cs with
  | _ n ih =>
      cases cs with
      | nil => exact ⟨[], .nil⟩
      | cons c cs =>
          obtain ⟨seg, rest, heq, hf⟩ := Segment.exists_fitsBefore c cs
          have hpos : 0 < seg.text.length := List.length_pos_iff.2 hf.text_ne_nil
          have hlen : seg.text.length + rest.length = n := by
            rw [← hn, ← heq, List.length_append]
          obtain ⟨segs, hsegs⟩ := ih rest.length (by omega) rest rfl
          exact ⟨seg :: segs, heq ▸ .cons hf hsegs⟩

/-- **Every text has exactly one segmentation.** -/
theorem existsUnique (cs : List Char) : ∃! segs, Segmentation cs segs := by
  obtain ⟨segs, h⟩ := exists_of_text cs
  exact ⟨segs, h, fun _ h' => h'.unique h⟩

end Segmentation

end StreamLexer
