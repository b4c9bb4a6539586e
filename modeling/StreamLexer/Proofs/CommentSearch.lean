/-
**Passing over a comment is a search.**

A comment ends with the first occurrence of its closing, and whoever passes over it reads up to that
closing and one character further, or to the end of the source if the closing does not occur.  To
find the closing of a block comment it is enough to remember one star: after a text without a
closing, a star at its end is the only thing that can begin one.

Main definitions:

* `StreamLexer.CharSource.Gives` — what a source has given, and what is left of it;
* `StreamLexer.Comment.StopsAt` — **a comment that is passed over up to one character** of a text;
* `StreamLexer.Comment.SearchesBlock`, `StreamLexer.Comment.SearchesLine` — the character that it
  is for each kind of comment.

Main results:

* `StreamLexer.Comment.skip_of_gives` — what is passed over while the comment goes on;
* `StreamLexer.Comment.stopsAt_of_closed`, `StreamLexer.Comment.stopsAt_of_open` — a comment that is
  closed in a text, and one that is not;
* `StreamLexer.Comment.skip_searches` — **the search for the first closing**.
-/

import StreamLexer.Proofs.CommentText
import StreamLexer.Proofs.EndOfInput

set_option relaxedAutoImplicit false
set_option autoImplicit false

namespace StreamLexer

open Grammar

/-! ### What a source has given -/

/-- The answers of a source, up to the one after so many characters of its text. -/
theorem take_answers {text : List Char} {i : Nat} (h : i ≤ text.length) :
    (text.map some ++ [none]).take (i + 1) = (text.take i).map some ++ [text[i]?] := by
  rcases Nat.lt_or_eq_of_le h with hlt | rfl
  · rw [List.take_append_of_le_length (by rwa [List.length_map]), ← List.map_take,
      List.take_succ_eq_append_getElem hlt, List.map_append, List.getElem?_eq_getElem hlt]
    rfl
  · rw [List.take_of_length_le (by simp), List.take_length, List.getElem?_eq_none (Nat.le_refl _)]

/-- The answer to a request goes on record. -/
theorem Recorded.answers_next {σ : Type} [CharSource σ] (r : Recorded σ) :
    (CharSource.next r).2.answers = r.answers ++ [(CharSource.next r).1] := rfl

namespace CharSource

variable {σ : Type} [CharSource σ]

/-- The source gives the characters `cs`, one after another, and `t` is what is left of it. -/
inductive Gives : σ → List Char → σ → Prop
  | nil (s : σ) : Gives s [] s
  | cons {s s' t : σ} {c : Char} {cs : List Char} : next s = (some c, s') → Gives s' cs t →
      Gives s (c :: cs) t

/-- Whoever reads a source gets the front of its text first, and the rest is left. -/
theorem exists_gives {s e : σ} {cs ds : List Char} (h : readAll s = (cs ++ ds, e)) :
    ∃ t, Gives s cs t ∧ readAll t = (ds, e) := by
  induction cs generalizing s with
  | nil => exact ⟨s, .nil s, h⟩
  | cons c cs ih =>
      rcases hn : next s with ⟨o, s'⟩
      cases o with
      | none =>
          rw [readAll_of_none hn] at h
          cases h
      | some d =>
          rw [readAll_of_some hn] at h
          obtain ⟨htext, hend⟩ := Prod.mk.inj h
          obtain ⟨rfl, hmore⟩ := List.cons.inj htext
          obtain ⟨t, ht, hrest⟩ := ih (Prod.ext hmore hend)
          exact ⟨t, .cons hn ht, hrest⟩

/-- At the end of its text a source answers none. -/
theorem next_of_readAll_nil {s e : σ} (h : readAll s = ([], e)) : next s = (none, e) := by
  rcases hn : next s with ⟨o, s'⟩
  cases o with
  | none =>
      rw [readAll_of_none hn] at h
      rw [(Prod.mk.inj h).2]
  | some c =>
      rw [readAll_of_some hn] at h
      cases h

/-- Before the end of its text a source answers the next character. -/
theorem next_of_readAll_cons {s e : σ} {c : Char} {cs : List Char}
    (h : readAll s = (c :: cs, e)) : ∃ t, next s = (some c, t) ∧ readAll t = (cs, e) := by
  have hsplit : readAll s = ([c] ++ cs, e) := h
  obtain ⟨t, hgives, ht⟩ := exists_gives hsplit
  cases hgives with
  | cons hn hnil =>
      cases hnil with
      | nil => exact ⟨t, hn, ht⟩

/-- **The answer after so many characters**, and what is left after it. -/
theorem exists_gives_take {s : σ} {text : List Char} (h : (readAll s).1 = text) (i : Nat) :
    ∃ t, Gives s (text.take i) t ∧ (next t).1 = text[i]? ∧
      (i < text.length → readAll (next t).2 = (text.drop (i + 1), (readAll s).2)) ∧
      (text.length ≤ i → (next t).2 = (readAll s).2) := by
  have hread : readAll s = (text.take i ++ text.drop i, (readAll s).2) := by
    rw [List.take_append_drop, ← h]
  obtain ⟨t, hgives, ht⟩ := exists_gives hread
  refine ⟨t, hgives, ?_⟩
  rcases Nat.lt_or_ge i text.length with hlt | hge
  · rw [List.drop_eq_getElem_cons hlt] at ht
    obtain ⟨t', hnext, ht'⟩ := next_of_readAll_cons ht
    rw [hnext, List.getElem?_eq_getElem hlt]
    exact ⟨rfl, fun _ => ht', fun hge => absurd hlt (Nat.not_lt.2 hge)⟩
  · rw [List.drop_of_length_le hge] at ht
    rw [next_of_readAll_nil ht, List.getElem?_eq_none hge]
    exact ⟨rfl, fun hlt => absurd hlt (Nat.not_lt.2 hge), fun _ => rfl⟩

theorem Gives.of_append {s t : σ} {cs ds : List Char} (h : Gives s (cs ++ ds) t) :
    ∃ s', Gives s cs s' ∧ Gives s' ds t := by
  induction cs generalizing s with
  | nil => exact ⟨s, .nil s, h⟩
  | cons c cs ih =>
      cases h with
      | cons hn hmore =>
          obtain ⟨s', hcs, hds⟩ := ih hmore
          exact ⟨s', .cons hn hcs, hds⟩

theorem Gives.readAll_eq {s t : σ} {cs : List Char} (h : Gives s cs t) :
    (readAll s).1 = cs ++ (readAll t).1 := by
  induction h with
  | nil s => rfl
  | cons hn _ ih => rw [readAll_of_some hn, ih, List.cons_append]

/-- What a recorded source gives goes on record. -/
theorem Gives.answers_eq {r r' : Recorded σ} {cs : List Char} (h : Gives r cs r') :
    r'.answers = r.answers ++ cs.map some := by
  induction h with
  | nil r => exact (List.append_nil _).symm
  | @cons r r' t c cs hn _ ih =>
      have hanswers := Recorded.answers_next r
      rw [hn] at hanswers
      rw [ih, hanswers, List.append_assoc, List.map_cons, List.singleton_append]

end CharSource

/-! ### Passing over a comment -/

namespace Comment

open CharSource Segment

/-- **A comment that is passed over up to the character at index `i`** of the text of a source; at
the end of the text, up to the first none. -/
structure StopsAt {σ : Type} [CharSource σ] (k : Comment) (s : σ) (text : List Char) (i : Nat) :
    Prop where
  /-- The character at the index is the answer. -/
  answer : (k.skip s).1 = text[i]?
  /-- The characters up to the index are read, each once and in order, and nothing else. -/
  reads : (k.skip (Recorded.start s)).2.answers = (text.map some ++ [none]).take (i + 1)
  /-- There is one reading more than the index says. -/
  length_reads : (k.skip (Recorded.start s)).2.answers.length = i + 1
  /-- Recording the answers makes no difference. -/
  recorded : (k.skip (Recorded.start s)).1 = (k.skip s).1 ∧
    (k.skip (Recorded.start s)).2.source = (k.skip s).2
  /-- The text after the index is left unread. -/
  unread : i < text.length → readAll (k.skip s).2 = (text.drop (i + 1), (readAll s).2)
  /-- At the end of the text the source is left after its first none. -/
  at_end : text.length ≤ i → (k.skip s).2 = (readAll s).2

variable {σ : Type} [CharSource σ]

/-- **While a comment goes on** it is passed over. -/
theorem skip_of_gives {k k' : Comment} {s t : σ} {cs : List Char} (h : Gives s cs t)
    (hk : cs.foldlM step k = some k') : k.skip s = k'.skip t := by
  induction h generalizing k with
  | nil s =>
      obtain rfl : k = k' := Option.some.inj hk
      rfl
  | @cons s s' t c cs hn _ ih =>
      rw [List.foldlM_cons] at hk
      cases hc : k.step c with
      | none =>
          rw [hc] at hk
          cases hk
      | some k₁ =>
          rw [hc] at hk
          rw [skip_of_some hn, hc]
          exact ih hk

/-- **To pass over a comment is to read the characters before an index and one answer more** where
every source agrees to that. -/
theorem stopsAt_of_skip_eq {k : Comment} {s : σ} {text : List Char} {i : Nat}
    (h : (readAll s).1 = text) (hi : i ≤ text.length)
    (hskip : ∀ {τ : Type} [CharSource τ] {s t : τ}, (readAll s).1 = text →
      Gives s (text.take i) t → k.skip s = next t) : k.StopsAt s text i := by
  -- the answer and the rest are seen in the source, the readings in the same source recorded
  have hagree := skip_agree Recorded.simulation (s := Recorded.start s) rfl k
  have hstart : (readAll (Recorded.start s)).1 = text := (Tokenizer.readAll_start s).trans h
  obtain ⟨t, hgives, hanswer, hunread, hend⟩ := exists_gives_take h i
  obtain ⟨r, hgives', hanswer', _⟩ := exists_gives_take hstart i
  have hskip' : k.skip (Recorded.start s) = next r := hskip hstart hgives'
  have hreads : (next r).2.answers = (text.map some ++ [none]).take (i + 1) := by
    rw [Recorded.answers_next, hgives'.answers_eq, hanswer', take_answers hi]
    rfl
  refine ⟨?_, ?_, ?_, hagree, ?_, ?_⟩
  · rw [hskip h hgives, hanswer]
  · rw [hskip', hreads]
  · rw [hskip', hreads, List.length_take, List.length_append, List.length_map]
    exact Nat.min_eq_left (Nat.succ_le_succ hi)
  · rw [hskip h hgives]
    exact hunread
  · rw [hskip h hgives]
    exact hend

variable {s : σ} {text : List Char}

/-- **A comment that is closed in a text** is passed over up to the character after its closing. -/
theorem stopsAt_of_closed {k k' : Comment} {body after : List Char} {e : Char}
    (h : (readAll s).1 = text) (htext : text = body ++ e :: after)
    (hbody : body.foldlM step k = some k') (he : k'.step e = none) :
    k.StopsAt s text (body.length + 1) := by
  have htake : text.take (body.length + 1) = body ++ [e] := by
    rw [htext, List.append_cons, List.take_left' (by simp)]
  refine stopsAt_of_skip_eq h (by simp [htext]) ?_
  intro τ _ s t _ hgives
  rw [htake] at hgives
  obtain ⟨t', hbefore, hclose⟩ := hgives.of_append
  rw [skip_of_gives hbefore hbody]
  cases hclose with
  | cons hn hnil =>
      cases hnil with
      | nil => rw [skip_of_some hn, he]

/-- **A comment that is not closed in a text** is passed over up to the end of the text. -/
theorem stopsAt_of_open {k k' : Comment} (h : (readAll s).1 = text)
    (htext : text.foldlM step k = some k') : k.StopsAt s text text.length := by
  refine stopsAt_of_skip_eq h (Nat.le_refl _) ?_
  intro τ _ s t hs hgives
  rw [List.take_length] at hgives
  have hend := hgives.readAll_eq
  rw [hs] at hend
  have ht : readAll t = ([], (readAll t).2) :=
    Prod.ext (List.append_cancel_left (hend.symm.trans (List.append_nil _).symm)) rfl
  have hn := next_of_readAll_nil ht
  rw [skip_of_gives hgives htext, skip_of_none hn, hn]

/-! ### The first closing -/

/-- What stands before the first closing of a block comment, and the closing. -/
theorem exists_blockEnd {text before after : List Char}
    (h : FirstOccurrence blockEnd text before after) :
    text = (before ++ ['*']) ++ '/' :: after ∧
      (before ++ ['*']).foldlM step openBlock = some (block true) := by
  refine ⟨?_, (foldlM_step_before_close h.of_append_right).2⟩
  rw [h.1]
  simp [blockEnd]

/-- A character in front that begins no occurrence leaves the first one the first. -/
theorem firstOccurrence_cons {p cs before after : List Char} {c : Char}
    (h : FirstOccurrence p cs before after) (hc : ¬ p <+: c :: cs) :
    FirstOccurrence p (c :: cs) (c :: before) after := by
  refine ⟨by rw [h.1]; rfl, ?_⟩
  intro before' after' he
  cases before' with
  | nil => exact absurd ⟨after', he.symm⟩ hc
  | cons d before' => exact Nat.succ_le_succ (h.2 before' after' (List.cons.inj he).2)

/-- A slash in front belongs to no closing. -/
theorem firstOccurrence_slash_cons {cs before after : List Char}
    (h : FirstOccurrence blockEnd cs before after) :
    FirstOccurrence blockEnd ('/' :: cs) ('/' :: before) after := by
  refine firstOccurrence_cons h ?_
  rintro ⟨rest, he⟩
  exact absurd (List.cons.inj he).1 (by decide)

/-- Of stars in a row the last begins the closing. -/
theorem firstOccurrence_stars (stars : Nat) (after : List Char) :
    FirstOccurrence blockEnd (List.replicate stars '*' ++ blockEnd ++ after)
      (List.replicate stars '*') after := by
  induction stars with
  | zero => exact ⟨rfl, fun before' _ _ => Nat.zero_le before'.length⟩
  | succ stars ih =>
      refine firstOccurrence_cons ih ?_
      -- after the star in front comes another, and no slash
      rintro ⟨rest, he⟩
      have hsecond := (List.cons.inj he).2
      cases stars with
      | zero => exact absurd (List.cons.inj hsecond).1 (by decide)
      | succ stars => exact absurd (List.cons.inj hsecond).1 (by decide)

/-- **The search for the closing of a block comment** in the text of a source. -/
structure SearchesBlock (s : σ) (text : List Char) : Prop where
  /-- The search stops one character after the first closing, whatever stands before and after it. -/
  closed : ∀ before after, FirstOccurrence blockEnd text before after →
    openBlock.StopsAt s text (before.length + 2)
  /-- Without a closing the search goes to the end. -/
  unclosed : ¬ blockEnd <:+: text → openBlock.StopsAt s text text.length
  /-- A slash in front closes nothing. -/
  slash_first : ∀ cs before after, text = '/' :: cs → FirstOccurrence blockEnd cs before after →
    openBlock.StopsAt s text (before.length + 3)
  /-- Each star of a row may begin the closing. -/
  stars : ∀ n after, text = List.replicate n '*' ++ blockEnd ++ after →
    openBlock.StopsAt s text (n + 2)

/-- **The search for the end of a line** in the text of a source. -/
structure SearchesLine (s : σ) (text : List Char) : Prop where
  /-- The search stops one character after the first line end. -/
  closed : ∀ before e after, text = before ++ e :: after → (∀ c ∈ before, ¬ LineEnd c) →
    LineEnd e → line.StopsAt s text (before.length + 1)
  /-- Without a line end the search goes to the end. -/
  unclosed : (∀ c ∈ text, ¬ LineEnd c) → line.StopsAt s text text.length
  /-- After a carriage return the line feed is the answer. -/
  carriage_return : ∀ before after, text = before ++ '\r' :: '\n' :: after →
    (∀ c ∈ before, ¬ LineEnd c) → (line.skip s).1 = some '\n'

theorem searchesBlock (h : (readAll s).1 = text) : SearchesBlock s text := by
  have hclosed : ∀ before after, FirstOccurrence blockEnd text before after →
      openBlock.StopsAt s text (before.length + 2) := by
    intro before after hfirst
    obtain ⟨htext, hbody⟩ := exists_blockEnd hfirst
    have hstops := stopsAt_of_closed h htext hbody rfl
    rwa [List.length_append] at hstops
  refine ⟨hclosed, ?_, ?_, ?_⟩
  · intro hnone
    exact stopsAt_of_open h (foldlM_step_block hnone)
  · rintro cs before after rfl hfirst
    exact hclosed _ _ (firstOccurrence_slash_cons hfirst)
  · rintro n after rfl
    have hstops := hclosed _ _ (firstOccurrence_stars n after)
    rwa [List.length_replicate] at hstops

theorem searchesLine (h : (readAll s).1 = text) : SearchesLine s text := by
  have hclosed : ∀ before e after, text = before ++ e :: after → (∀ c ∈ before, ¬ LineEnd c) →
      LineEnd e → line.StopsAt s text (before.length + 1) := by
    intro before e after htext hbefore he
    exact stopsAt_of_closed h htext (foldlM_step_line hbefore) (step_line_of_lineEnd he)
  refine ⟨hclosed, ?_, ?_⟩
  · intro hnone
    exact stopsAt_of_open h (foldlM_step_line hnone)
  · intro before after htext hbefore
    have hstops := hclosed before '\r' ('\n' :: after) htext hbefore (.inr rfl)
    rw [hstops.answer, htext]
    simp

/-- **Passing over a comment is the search for its first closing**, read by read, over every source
with the given text. -/
theorem skip_searches (s : σ) (text : List Char) (h : (readAll s).1 = text) :
    SearchesBlock s text ∧ SearchesLine s text := by
  constructor
  · exact searchesBlock h
  · exact searchesLine h

/-- A slash in front, a star before the closing, and an opening after it. -/
theorem skip_searches_past_stars :
    (readAll (⟨"/a**/b/*".toList⟩ : TextCursor)).1 = "/a**/b/*".toList ∧
      FirstOccurrence blockEnd "/a**/b/*".toList "/a*".toList "b/*".toList ∧
      openBlock.StopsAt (⟨"/a**/b/*".toList⟩ : TextCursor) "/a**/b/*".toList 5 := by
  have htext := TextCursor.readAll_fst ⟨"/a**/b/*".toList⟩
  have hstars : FirstOccurrence blockEnd "**/b/*".toList ['*'] "b/*".toList :=
    firstOccurrence_stars 1 "b/*".toList
  have hletter : FirstOccurrence blockEnd "a**/b/*".toList "a*".toList "b/*".toList :=
    firstOccurrence_cons hstars (by decide)
  have hfirst : FirstOccurrence blockEnd "/a**/b/*".toList "/a*".toList "b/*".toList :=
    firstOccurrence_cons hletter (by decide)
  exact ⟨htext, hfirst, (skip_searches _ _ htext).1.closed _ _ hfirst⟩

end Comment

end StreamLexer
