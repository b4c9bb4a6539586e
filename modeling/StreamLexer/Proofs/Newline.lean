/-
**Texts joined by a line feed.**

A line feed ends every token and every comment but one: only an open block comment goes on in the
next line.  So the tokens of two texts joined by a line feed are those of the first followed by
those of the second, unless the first leaves a block comment open; then the second counts only from
where that comment is closed.

Main definitions:

* `StreamLexer.LeavesBlockOpen` — a text whose last segment is a block comment left open;
* `StreamLexer.PartAfter` — what follows the first occurrence of a pattern, nothing if there is
  none.

Main results:

* `StreamLexer.exists_partAfter_iff` — there is exactly one part after a pattern;
* `StreamLexer.leavesBlockOpen_iff` — a text leaves a block comment open when it leaves the scanner
  inside one;
* `StreamLexer.Scan.tokens_newline` — a line feed returns every other state to rest;
* `StreamLexer.tokenize_newline` — **the tokens of two texts joined by a line feed**.
-/

import StreamLexer.Proofs.LexicalGrammar

set_option relaxedAutoImplicit false
set_option autoImplicit false

namespace StreamLexer

open Segment

/-- A text whose last segment is a block comment left open. -/
def LeavesBlockOpen (cs : List Char) : Prop :=
  ∃ segs, Segmentation cs segs ∧ ∃ seg ∈ segs.getLast?, seg.IsOpenBlock

/-- The part `rest` of `cs` after the first occurrence of `p`; nothing if `p` does not occur. -/
def PartAfter (p cs rest : List Char) : Prop :=
  (∃ before, FirstOccurrence p cs before rest) ∨ (¬ p <:+: cs ∧ rest = [])

/-- A text has one part only after the first occurrence of a pattern. -/
theorem PartAfter.unique {p cs rest rest' : List Char} (h : PartAfter p cs rest)
    (h' : PartAfter p cs rest') : rest = rest' := by
  rcases h with ⟨before, hfirst⟩ | ⟨hnot, rfl⟩
  · rcases h' with ⟨before', hfirst'⟩ | ⟨hnot', rfl⟩
    · exact (hfirst.unique hfirst').2
    · exact absurd hfirst.infix hnot'
  · rcases h' with ⟨before', hfirst'⟩ | ⟨_, rfl⟩
    · exact absurd hfirst'.infix hnot
    · rfl

theorem exists_partAfter_iff (p cs : List Char) :
    ∃ rest, ∀ part, PartAfter p cs part ↔ part = rest := by
  have hpart : ∃ rest, PartAfter p cs rest := by
    by_cases h : p <:+: cs
    · obtain ⟨before, rest, hfirst⟩ := exists_firstOccurrence h
      exact ⟨rest, Or.inl ⟨before, hfirst⟩⟩
    · exact ⟨[], Or.inr ⟨h, rfl⟩⟩
  obtain ⟨rest, hrest⟩ := hpart
  exact ⟨rest, fun part => ⟨fun h => h.unique hrest, fun h => h ▸ hrest⟩⟩

namespace Scan

/-! ### The state at the end of a text -/

/-- What follows a state that refuses it might as well follow the state of rest. -/
theorem after_of_stop {state : Scan} {v : List Char} (h : ∀ c ∈ v.head?, state.step c = none)
    (hv : v ≠ []) : after state v = after start v := by
  cases v with
  | nil => exact absurd rfl hv
  | cons c v => rw [after_cons, after_cons, advance_of_none (h c rfl), advance_start]

end Scan

/-- Over one segment of several, the state at the end is that of the segments after it. -/
theorem Segment.Reaches.after_append {seg : Segment} {rest : List Char} {state : Scan}
    (h : seg.Reaches rest state) (hrest : rest ≠ []) :
    Scan.start.after (seg.text ++ rest) = Scan.start.after rest := by
  rw [Scan.after_append, (Scan.after_passed_of_foldlM h.foldlM_step).1]
  rcases h.stops with rfl | hstop
  · rfl
  · exact Scan.after_of_stop hstop hrest

/-- The last segment tells whether a text leaves the scanner inside a block comment. -/
theorem Segmentation.after_eq_block_iff {cs : List Char} {segs : List Segment}
    (h : Segmentation cs segs) :
    (∃ afterStar, Scan.start.after cs = .comment (.block afterStar)) ↔
      ∃ seg ∈ segs.getLast?, seg.IsOpenBlock := by
  induction h with
  | nil => simp [Scan.after]
  | @cons seg rest segs hf hs ih =>
      obtain ⟨state, hr⟩ := hf.exists_reaches
      cases hs with
      | nil =>
          rw [List.append_nil, (Scan.after_passed_of_foldlM hr.foldlM_step).1]
          simpa using hr.isOpenBlock_iff
      | @cons seg' rest' segs' hf' _ =>
          rw [hr.after_append (by simp [hf'.text_ne_nil])]
          simpa using ih

/-- **A text leaves a block comment open exactly when it leaves the scanner inside one.** -/
theorem leavesBlockOpen_iff {cs : List Char} :
    LeavesBlockOpen cs ↔ ∃ afterStar, Scan.start.after cs = .comment (.block afterStar) := by
  constructor
  · rintro ⟨segs, hs, hopen⟩
    exact hs.after_eq_block_iff.2 hopen
  · intro h
    obtain ⟨segs, hs⟩ := Segmentation.exists_of_text cs
    exact ⟨segs, hs, hs.after_eq_block_iff.1 h⟩

/-! ### A line feed at the seam -/

namespace Scan

/-- **A line feed returns the scanner to rest**, with the token of its state completed, unless it
stands in a block comment. -/
theorem tokens_newline {state : Scan} (h : ¬ ∃ afterStar, state = .comment (.block afterStar))
    (v : List Char) : tokens state ('\n' :: v) = state.completed ++ tokens start v := by
  have hrest : tokens start ('\n' :: v) = tokens start v := by
    rw [tokens_start_cons, enter_whitespace (by decide)]
  have hstop : state.step '\n' = none →
      tokens state ('\n' :: v) = state.completed ++ tokens start v := by
    intro hn
    rw [tokens_of_stop (by simpa using hn), hrest]
  cases state with
  | start => rw [hrest]; rfl
  | word cs => exact hstop rfl
  | number cs => exact hstop rfl
  | slash => exact hstop rfl
  | symbol c => exact hstop rfl
  | comment k =>
      cases k with
      | line =>
          have hstep : step (comment .line) '\n' = some start := by decide
          rw [tokens_cons_of_some hstep]
          rfl
      | block afterStar => exact absurd ⟨afterStar, rfl⟩ h

/-- In a block comment a line feed is a character like any other. -/
theorem tokens_block_newline (afterStar : Bool) (v : List Char) :
    tokens (comment (.block afterStar)) ('\n' :: v) = tokens (comment .openBlock) v := by
  have hstep : step (comment (.block afterStar)) '\n' = some (comment .openBlock) := by
    simp [step, Comment.step, Comment.openBlock]
  rw [tokens_cons_of_some hstep]

/-- From within a block comment the tokens of a text are those of the part after its closing. -/
theorem tokens_openBlock {v rest : List Char} (h : PartAfter blockEnd v rest) :
    tokens (comment .openBlock) v = tokens start rest := by
  rcases h with ⟨before, hfirst⟩ | ⟨hnot, rfl⟩
  · obtain ⟨hbody, hopen⟩ := Comment.foldlM_step_before_close hfirst.of_append_right
    have hclosed := foldlM_step_comment_closed (c := '/') hopen rfl
    rw [hfirst.1, hbody, tokens_append_of_foldlM hclosed]
  · have hopen := foldlM_step_comment (Comment.foldlM_step_block hnot)
    have := tokens_append_of_foldlM hopen []
    simpa using this

end Scan

/-- **The tokens of two texts joined by a line feed** are those of the first and then those of the
second; of the second only the part after its first closing of a block comment counts, if the first
leaves a block comment open. -/
theorem tokenize_newline (u v : String) :
    (¬ LeavesBlockOpen u.toList → tokenize (u ++ "\n" ++ v) = tokenize u ++ tokenize v) ∧
      (LeavesBlockOpen u.toList → ∃ rest : String,
        (∀ part, PartAfter blockEnd v.toList part ↔ part = rest.toList) ∧
          tokenize (u ++ "\n" ++ v) = tokenize u ++ tokenize rest) := by
  have hjoin : tokenize (u ++ "\n" ++ v) = Scan.start.passed u.toList ++
      (Scan.start.after u.toList).tokens ('\n' :: v.toList) := by
    have htext : (u ++ "\n" ++ v).toList = u.toList ++ '\n' :: v.toList := by simp
    rw [tokenize_eq_tokens, htext, Scan.tokens_append]
  have hu : tokenize u = Scan.start.passed u.toList ++ (Scan.start.after u.toList).completed :=
    tokenize_eq_tokens u
  constructor
  · intro hopen
    rw [hjoin, hu, tokenize_eq_tokens v, Scan.tokens_newline (mt leavesBlockOpen_iff.2 hopen),
      List.append_assoc]
  · intro hopen
    obtain ⟨afterStar, hafter⟩ := leavesBlockOpen_iff.1 hopen
    obtain ⟨rest, hrest⟩ := exists_partAfter_iff blockEnd v.toList
    refine ⟨String.ofList rest, by rwa [String.toList_ofList], ?_⟩
    rw [hjoin, hu, hafter, Scan.tokens_block_newline, Scan.tokens_openBlock ((hrest rest).2 rfl),
      tokenize_eq_tokens, String.toList_ofList, Scan.completed_comment, List.append_nil]

end StreamLexer
