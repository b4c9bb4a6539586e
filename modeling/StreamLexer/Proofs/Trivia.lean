/-
**Whitespace and comments between tokens.**

Whitespace and closed comments are trivia: what follows them is scanned from rest, whatever it is,
and they leave no token.  So where a text falls apart into segments, any trivia may stand in the
place of the whitespace and comments that are there, and any may be put where there are none.  One
seam is an exception: directly after a slash that is a symbol, a comment would take the slash for
the first character of its opening.

Main definitions:

* `StreamLexer.Segment.IsTrivia`, `StreamLexer.IsTriviaText` — whitespace and closed comments, one
  of them and a text made of them;
* `StreamLexer.Segment.IsOpenComment` — a comment left open;
* `StreamLexer.TriviaGap` — **a place for trivia** in a text.

Main results:

* `StreamLexer.Segmentation.replace_right` — what follows a seam may be replaced, if the segment
  before the seam may stand before it;
* `StreamLexer.Segment.FitsBefore.before_trivia` — every segment but an open comment may stand
  before trivia, a slash only before whitespace;
* `StreamLexer.tokenize_triviaGap` — **trivia make no difference to the tokens of a text**.
-/

import StreamLexer.Proofs.LexicalGrammar

set_option relaxedAutoImplicit false
set_option autoImplicit false

namespace StreamLexer

open Grammar Segment

/-! ### Trivia -/

namespace Segment

/-- **Trivia** are whitespace, and comments that are closed. -/
inductive IsTrivia : Segment → Prop
  | whitespace {c : Char} : Whitespace c → IsTrivia ⟨.whitespace, [c]⟩
  | lineComment {body : List Char} {e : Char} : (∀ d ∈ body, ¬ LineEnd d) → LineEnd e →
      IsTrivia ⟨.lineComment, '/' :: '/' :: (body ++ [e])⟩
  | blockComment {body before : List Char} : FirstOccurrence blockEnd body before [] →
      IsTrivia ⟨.blockComment, '/' :: '*' :: body⟩

/-- A comment that is left open. -/
def IsOpenComment (seg : Segment) : Prop :=
  seg.IsOpenBlock ∨ ∃ body, seg = ⟨.lineComment, '/' :: '/' :: body⟩ ∧ ∀ d ∈ body, ¬ LineEnd d

/-- Trivia may stand before anything. -/
theorem IsTrivia.fitsBefore {seg : Segment} (h : seg.IsTrivia) (rest : List Char) :
    seg.FitsBefore rest := by
  cases h with
  | whitespace hc => exact .whitespace hc
  | lineComment hbody he => exact .lineComment hbody he
  | blockComment hfirst => exact .blockComment hfirst

theorem IsTrivia.isLexeme_eq_false {seg : Segment} (h : seg.IsTrivia) : seg.isLexeme = false := by
  cases h <;> rfl

/-- Trivia start with whitespace or with a slash. -/
theorem IsTrivia.exists_text_eq_cons {seg : Segment} (h : seg.IsTrivia) :
    ∃ c cs, seg.text = c :: cs ∧ (Whitespace c ∨ c = '/') := by
  cases h with
  | whitespace hc => exact ⟨_, _, rfl, Or.inl hc⟩
  | lineComment _ _ => exact ⟨_, _, rfl, Or.inr rfl⟩
  | blockComment _ => exact ⟨_, _, rfl, Or.inr rfl⟩

/-- What is no word, number or symbol leaves no token. -/
theorem tokens_of_isLexeme_eq_false {seg : Segment} (h : seg.isLexeme = false) :
    seg.tokens = [] := by
  obtain ⟨kind, text⟩ := seg
  cases kind with
  | whitespace => rfl
  | lineComment => rfl
  | blockComment => rfl
  | word => simp [isLexeme] at h
  | number => simp [isLexeme] at h
  | symbol => simp [isLexeme] at h

theorem flatMap_tokens_of_isLexeme_eq_false {segs : List Segment}
    (h : ∀ seg ∈ segs, seg.isLexeme = false) : segs.flatMap tokens = [] := by
  refine List.flatMap_eq_nil_iff.2 ?_
  intro seg hseg
  exact tokens_of_isLexeme_eq_false (h seg hseg)

/-! ### What may follow a segment -/

/-- Of what follows a segment only the first character matters, and whether there is one. -/
theorem FitsBefore.of_head? {seg : Segment} {rest rest' : List Char} (h : seg.FitsBefore rest)
    (hhead : rest'.head? = rest.head?) : seg.FitsBefore rest' := by
  have hnil : rest = [] → rest' = [] := by
    rintro rfl
    exact List.head?_eq_none_iff.1 hhead
  cases h with
  | whitespace hc => exact .whitespace hc
  | lineComment hbody he => exact .lineComment hbody he
  | openLineComment hbody hrest => exact .openLineComment hbody (hnil hrest)
  | blockComment hfirst => exact .blockComment hfirst
  | openBlockComment hnot hrest => exact .openBlockComment hnot (hnil hrest)
  | word hc hcs hstop => exact .word hc hcs (hhead ▸ hstop)
  | number hc hcs hstop => exact .number hc hcs (hhead ▸ hstop)
  | symbol hw hl hn hs => exact .symbol hw hl hn (hhead ▸ hs)

/-- Neither whitespace nor a slash is part of a word or a number. -/
theorem not_part_of_trivia_start {c : Char} (h : Whitespace c ∨ c = '/') :
    ¬ WordPart c ∧ ¬ NumberPart c := by
  rcases h with hw | rfl
  · refine ⟨?_, hw.not_numberPart⟩
    rintro (hl | hd)
    · exact hw.not_letter hl
    · exact hw.not_numberPart (Or.inl hd)
  · decide

/-- **Every segment but an open comment may stand before trivia**; a slash may not stand before a
comment. -/
theorem FitsBefore.before_trivia {seg : Segment} {rest rest' : List Char} {c : Char}
    (h : seg.FitsBefore rest) (hclosed : ¬ seg.IsOpenComment) (hstart : Whitespace c ∨ c = '/')
    (hslash : Whitespace c ∨ seg ≠ ⟨.symbol, ['/']⟩) : seg.FitsBefore (c :: rest') := by
  have hpart := not_part_of_trivia_start hstart
  cases h with
  | whitespace hc => exact .whitespace hc
  | lineComment hbody he => exact .lineComment hbody he
  | openLineComment hbody _ => exact absurd (Or.inr ⟨_, rfl, hbody⟩) hclosed
  | blockComment hfirst => exact .blockComment hfirst
  | openBlockComment hnot _ => exact absurd (Or.inl ⟨_, rfl, hnot⟩) hclosed
  | word hc hcs _ => exact .word hc hcs (by simpa using hpart.1)
  | number hc hcs _ => exact .number hc hcs (by simpa using hpart.2)
  | @symbol d hw hl hn _ =>
      refine .symbol hw hl hn ?_
      rintro rfl e he
      obtain rfl : c = e := by simpa using he
      rcases hslash with hc | hne
      · refine ⟨?_, ?_⟩
        · rintro rfl
          exact hw hc
        · rintro rfl
          exact absurd hc (by decide)
      · exact absurd rfl hne

end Segment

/-! ### Segmentations across a seam -/

namespace Segmentation

/-- The segments after a seam are a segmentation of the text after it, and the segment before it
may stand before that text. -/
theorem exists_right {cs : List Char} {before after : List Segment}
    (h : Segmentation cs (before ++ after)) :
    ∃ rest, cs = before.flatMap Segment.text ++ rest ∧ Segmentation rest after ∧
      ∀ seg ∈ before.getLast?, seg.FitsBefore rest := by
  induction before generalizing cs with
  | nil => exact ⟨cs, rfl, h, by simp⟩
  | cons seg before ih =>
      cases h with
      | @cons _ rest _ hf hs =>
          obtain ⟨rest', rfl, hafter, hlast⟩ := ih hs
          refine ⟨rest', by rw [List.flatMap_cons, List.append_assoc], hafter, ?_⟩
          cases before with
          | nil => simpa using hf
          | cons seg' before => simpa using hlast

/-- **What follows a seam may be replaced** by anything that the segment before the seam may stand
before. -/
theorem replace_right {cs rest' : List Char} {before after after' : List Segment}
    (h : Segmentation cs (before ++ after)) (h' : Segmentation rest' after')
    (hseam : ∀ seg ∈ before.getLast?, seg.FitsBefore rest') :
    Segmentation (before.flatMap Segment.text ++ rest') (before ++ after') := by
  induction before generalizing cs with
  | nil => exact h'
  | cons seg before ih =>
      cases h with
      | @cons _ rest _ hf hs =>
          rw [List.flatMap_cons, List.append_assoc, List.cons_append]
          cases before with
          | nil => exact .cons (hseam seg (by simp)) h'
          | cons seg' before =>
              have hright := ih hs (by simpa using hseam)
              refine .cons ?_ hright
              -- the segment after this one is the same as before, so it starts alike
              have hs' : Segmentation rest (seg' :: (before ++ after)) := hs
              have hne : seg'.text ≠ [] := hs'.text_ne_nil seg' List.mem_cons_self
              have hrest : rest = seg'.text ++ (before ++ after).flatMap Segment.text := by
                rw [← hs'.flatMap_text, List.flatMap_cons]
              refine hf.of_head? ?_
              rw [hrest, List.flatMap_cons, List.append_assoc,
                List.head?_append_of_ne_nil _ hne, List.head?_append_of_ne_nil _ hne]

/-- Trivia may be put before any text. -/
theorem trivia_append {trivia segs : List Segment} {rest : List Char}
    (htrivia : ∀ seg ∈ trivia, seg.IsTrivia) (h : Segmentation rest segs) :
    Segmentation (trivia.flatMap Segment.text ++ rest) (trivia ++ segs) := by
  induction trivia with
  | nil => exact h
  | cons seg trivia ih =>
      have hseg : seg.IsTrivia := htrivia seg (by simp)
      have hrest := ih fun s hs => htrivia s (List.mem_cons_of_mem seg hs)
      rw [List.flatMap_cons, List.append_assoc]
      exact .cons (hseg.fitsBefore _) hrest

end Segmentation

/-! ### A place for trivia -/

/-- A text made of trivia, at least one. -/
def IsTriviaText (cs : List Char) : Prop :=
  ∃ trivia : List Segment, trivia ≠ [] ∧ (∀ seg ∈ trivia, seg.IsTrivia) ∧
    trivia.flatMap Segment.text = cs

theorem IsTriviaText.exists_eq_cons {cs : List Char} (h : IsTriviaText cs) :
    ∃ c more, cs = c :: more ∧ (Whitespace c ∨ c = '/') := by
  obtain ⟨trivia, hne, hall, rfl⟩ := h
  obtain ⟨seg, others, rfl⟩ := List.exists_cons_of_ne_nil hne
  obtain ⟨c, more, htext, hc⟩ := (hall seg List.mem_cons_self).exists_text_eq_cons
  refine ⟨c, more ++ others.flatMap Segment.text, ?_, hc⟩
  rw [List.flatMap_cons, htext, List.cons_append]

/-- **A place for trivia** in the text `p ++ t ++ q`: `p` is the text of the segments `before`, the
last of which is no open comment, and `t` that of whitespace and comments, if there are any. -/
structure TriviaGap (p t q : String) (before run after : List Segment) : Prop where
  segmentation : Segmentation (p ++ t ++ q).toList (before ++ (run ++ after))
  text_before : before.flatMap Segment.text = p.toList
  text_run : run.flatMap Segment.text = t.toList
  run_blank : ∀ seg ∈ run, seg.isLexeme = false
  before_closed : ∀ seg ∈ before.getLast?, ¬ seg.IsOpenComment

namespace TriviaGap

variable {p t q : String} {before run after : List Segment}

/-- The text after the gap falls into the segments after it. -/
theorem segmentation_after (h : TriviaGap p t q before run after) :
    Segmentation q.toList after := by
  have hscan : Segmentation (p ++ t ++ q).toList ((before ++ run) ++ after) := by
    rw [List.append_assoc]
    exact h.segmentation
  obtain ⟨rest, hcs, hafter, _⟩ := hscan.exists_right
  rw [List.flatMap_append, h.text_before, h.text_run, String.toList_append,
    String.toList_append] at hcs
  rw [List.append_cancel_left hcs]
  exact hafter

/-- The tokens are those of the segments before and after the gap. -/
theorem tokenize_eq (h : TriviaGap p t q before run after) :
    tokenize (p ++ t ++ q) = before.flatMap Segment.tokens ++ after.flatMap Segment.tokens := by
  rw [tokenize_eq_tokens, h.segmentation.tokens_eq, List.flatMap_append, List.flatMap_append,
    flatMap_tokens_of_isLexeme_eq_false h.run_blank, List.nil_append]

/-- What precedes the gap may stand before trivia. -/
theorem fitsBefore_trivia (h : TriviaGap p t q before run after) {cs : List Char}
    (htrivia : IsTriviaText cs)
    (hslash : (∃ c ∈ cs.head?, Whitespace c) ∨ before.getLast? ≠ some ⟨.symbol, ['/']⟩)
    (rest : List Char) : ∀ seg ∈ before.getLast?, seg.FitsBefore (cs ++ rest) := by
  intro seg hseg
  obtain ⟨c, more, rfl, hstart⟩ := htrivia.exists_eq_cons
  obtain ⟨_, _, _, hlast⟩ := h.segmentation.exists_right
  refine (hlast seg hseg).before_trivia (h.before_closed seg hseg) hstart ?_
  rcases hslash with ⟨d, hd, hw⟩ | hno
  · obtain rfl : c = d := by simpa using hd
    exact Or.inl hw
  · refine Or.inr ?_
    rintro rfl
    exact hno hseg

/-- **Trivia in the gap** leave the tokens as they are. -/
theorem tokenize_trivia (h : TriviaGap p t q before run after) {t' : String}
    (htrivia : IsTriviaText t'.toList)
    (hslash : (∃ c ∈ t'.toList.head?, Whitespace c) ∨ before.getLast? ≠ some ⟨.symbol, ['/']⟩) :
    tokenize (p ++ t' ++ q) = tokenize (p ++ t ++ q) := by
  have hseam := h.fitsBefore_trivia htrivia hslash q.toList
  obtain ⟨trivia, _, hall, htext⟩ := htrivia
  have hright : Segmentation (t'.toList ++ q.toList) (trivia ++ after) := by
    rw [← htext]
    exact Segmentation.trivia_append hall h.segmentation_after
  have hscan := h.segmentation.replace_right hright hseam
  have hblank : trivia.flatMap Segment.tokens = [] := by
    refine flatMap_tokens_of_isLexeme_eq_false ?_
    intro seg hseg
    exact (hall seg hseg).isLexeme_eq_false
  have hchars : (p ++ t' ++ q).toList =
      before.flatMap Segment.text ++ (t'.toList ++ q.toList) := by
    rw [h.text_before, String.toList_append, String.toList_append, List.append_assoc]
  rw [h.tokenize_eq, tokenize_eq_tokens, hchars, hscan.tokens_eq, List.flatMap_append,
    List.flatMap_append, hblank, List.nil_append]

/-- **After a slash that is a symbol** a line comment takes the slash with it. -/
theorem tokenize_lineComment_after_slash {init : List Segment}
    (h : TriviaGap p t q (init ++ [⟨.symbol, ['/']⟩]) run after) :
    tokenize (p ++ "//\n" ++ q) = init.flatMap Segment.tokens ++ after.flatMap Segment.tokens := by
  have hleft : Segmentation (p ++ t ++ q).toList
      (init ++ (⟨.symbol, ['/']⟩ :: (run ++ after))) := by
    simpa using h.segmentation
  obtain ⟨rest, _, hrest, hlast⟩ := hleft.exists_right
  have hhead : rest.head? = some '/' := by
    rw [← hrest.flatMap_text]
    rfl
  -- the two slashes that open the comment are the symbol and the first of the comment put in
  have hcomment : Segmentation ('/' :: '/' :: (['/'] ++ ['\n']) ++ q.toList)
      (⟨.lineComment, '/' :: '/' :: (['/'] ++ ['\n'])⟩ :: after) :=
    .cons (.lineComment (by simp [LineEnd]) (Or.inl rfl)) h.segmentation_after
  have hseam : ∀ seg ∈ init.getLast?,
      seg.FitsBefore ('/' :: '/' :: (['/'] ++ ['\n']) ++ q.toList) := by
    intro seg hseg
    exact (hlast seg hseg).of_head? hhead.symm
  have hscan := hleft.replace_right hcomment hseam
  have hchars : (p ++ "//\n" ++ q).toList =
      init.flatMap Segment.text ++ ('/' :: '/' :: (['/'] ++ ['\n']) ++ q.toList) := by
    rw [String.toList_append, String.toList_append, ← h.text_before]
    simp
  rw [tokenize_eq_tokens, hchars, hscan.tokens_eq, List.flatMap_append]
  rfl

end TriviaGap

/-- **Trivia make no difference to the tokens of a text**, wherever it falls apart into segments and
whatever whitespace and comments are there.  A comment directly after a slash that is a symbol is
the only exception, and there a line comment does make a difference. -/
theorem tokenize_triviaGap {p t q : String} {before run after : List Segment}
    (h : TriviaGap p t q before run after) :
    (∀ t' : String, IsTriviaText t'.toList →
        (∃ c ∈ t'.toList.head?, Whitespace c) ∨ before.getLast? ≠ some ⟨.symbol, ['/']⟩ →
        tokenize (p ++ t' ++ q) = tokenize (p ++ t ++ q)) ∧
      (before.getLast? = some ⟨.symbol, ['/']⟩ →
        tokenize (p ++ "//\n" ++ q) ≠ tokenize (p ++ t ++ q)) := by
  constructor
  · intro t' htrivia hslash
    exact h.tokenize_trivia htrivia hslash
  · intro hlast heq
    obtain ⟨init, rfl⟩ := List.getLast?_eq_some_iff.1 hlast
    rw [h.tokenize_lineComment_after_slash, h.tokenize_eq] at heq
    have hlen := congrArg List.length heq
    simp [Segment.tokens] at hlen

/-- A gap after a slash, and a comment in it that ends with a slash next to another one. -/
theorem tokenize_triviaGap_between_slashes :
    TriviaGap "a/" " " "/b" [⟨.word, ['a']⟩, ⟨.symbol, ['/']⟩] [⟨.whitespace, [' ']⟩]
        [⟨.symbol, ['/']⟩, ⟨.word, ['b']⟩] ∧
      IsTriviaText "\n/**/".toList ∧
      tokenize ("a/" ++ "\n/**/" ++ "/b") = tokenize ("a/" ++ " " ++ "/b") ∧
      tokenize ("a/" ++ "//\n" ++ "/b") ≠ tokenize ("a/" ++ " " ++ "/b") := by
  have hscan : Segmentation (['a'] ++ (['/'] ++ ([' '] ++ (['/'] ++ (['b'] ++ [])))))
      [⟨.word, ['a']⟩, ⟨.symbol, ['/']⟩, ⟨.whitespace, [' ']⟩, ⟨.symbol, ['/']⟩,
        ⟨.word, ['b']⟩] := by
    have hslash : ¬ WordPart '/' := by decide
    obtain ⟨hw, hl, hn⟩ := slash_plain
    refine .cons (.word (by decide) (by simp) (by simpa using hslash)) ?_
    refine .cons (.symbol hw hl hn (by simp)) ?_
    refine .cons (.whitespace (by decide)) ?_
    refine .cons (.symbol hw hl hn (by simp)) ?_
    exact .cons (.word (by decide) (by simp) (by simp)) .nil
  have hgap : TriviaGap "a/" " " "/b" [⟨.word, ['a']⟩, ⟨.symbol, ['/']⟩] [⟨.whitespace, [' ']⟩]
      [⟨.symbol, ['/']⟩, ⟨.word, ['b']⟩] :=
    ⟨hscan, rfl, rfl, by decide, by simp [Segment.IsOpenComment, Segment.IsOpenBlock]⟩
  have hfirst : FirstOccurrence blockEnd ['*', '/'] [] [] := ⟨rfl, fun _ _ _ => Nat.zero_le _⟩
  have htrivia : IsTriviaText "\n/**/".toList := by
    refine ⟨[⟨.whitespace, ['\n']⟩, ⟨.blockComment, '/' :: '*' :: ['*', '/']⟩], by simp, ?_, rfl⟩
    intro seg hseg
    rcases List.mem_cons.1 hseg with rfl | hseg
    · exact .whitespace (by decide)
    · obtain rfl := List.mem_singleton.1 hseg
      exact .blockComment hfirst
  obtain ⟨hreplace, hexception⟩ := tokenize_triviaGap hgap
  exact ⟨hgap, htrivia, hreplace _ htrivia (Or.inl ⟨'\n', rfl, by decide⟩), hexception rfl⟩

end StreamLexer
