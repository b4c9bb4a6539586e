/-
**Comments in a text.**

`StreamLexer.Comment.step` decides on one character after another whether a comment goes on.  Over
a whole text it finds the first line end, or the first place where a star and a slash stand side by
side: after a body without such a place a block comment remembers exactly whether the last
character was a star.

Main results:

* `StreamLexer.Comment.foldlM_step_line` — a line comment goes on through a text without a line
  end;
* `StreamLexer.Comment.foldlM_step_block` — **a block comment goes on through a text without its
  closing**, and remembers a star at its end;
* `StreamLexer.Comment.foldlM_step_before_close` — it is after a star when its closing is about to
  be completed.
-/

import StreamLexer.Comment
import StreamLexer.Proofs.Grammar

set_option relaxedAutoImplicit false
set_option autoImplicit false

namespace StreamLexer

open Grammar

theorem isLineEnd_iff {c : Char} : CharClass.isLineEnd c = true ↔ LineEnd c := by
  simp [CharClass.isLineEnd, LineEnd]

namespace Comment

open Segment

/-- A line comment goes on through a text without a line end. -/
theorem foldlM_step_line {body : List Char} (h : ∀ d ∈ body, ¬ LineEnd d) :
    body.foldlM step line = some line := by
  induction body with
  | nil => rfl
  | cons c body ih =>
      have hc : ¬ CharClass.isLineEnd c = true := fun hc => h c (by simp) (isLineEnd_iff.1 hc)
      rw [List.foldlM_cons, step, if_neg hc]
      exact ih fun d hd => h d (List.mem_cons_of_mem c hd)

theorem step_line_of_lineEnd {e : Char} (h : LineEnd e) : line.step e = none := by
  rw [step, if_pos (isLineEnd_iff.2 h)]

/-- **A block comment goes on through a text without its closing**, and remembers whether a star
was last. -/
theorem foldlM_step_block {body : List Char} (h : ¬ blockEnd <:+: body) :
    body.foldlM step openBlock = some (block (body.getLast? = some '*')) := by
  -- from the end of the body: what is remembered depends on its last character
  induction body using List.reverseRecOn with
  | nil => rfl
  | append_singleton init c ih =>
      have hinit : ¬ blockEnd <:+: init := fun hin => h (hin.trans (List.prefix_append _ _).isInfix)
      have hclose : ¬ (init.getLast? = some '*' ∧ c = '/') := by
        rintro ⟨hlast, rfl⟩
        obtain ⟨before, rfl⟩ := List.getLast?_eq_some_iff.1 hlast
        exact h ⟨before, [], by simp [blockEnd]⟩
      rw [List.foldlM_append, ih hinit]
      simpa [step] using hclose

/-- Where the closing of a block comment is about to be completed, the comment is after a star. -/
theorem foldlM_step_before_close {body before : List Char}
    (h : FirstOccurrence blockEnd body before []) :
    body = before ++ ['*'] ++ ['/'] ∧
      (before ++ ['*']).foldlM step openBlock = some (block true) := by
  have hbody : body = before ++ ['*'] ++ ['/'] := by simpa [blockEnd] using h.1
  refine ⟨hbody, ?_⟩
  have hnot : ¬ blockEnd <:+: before ++ ['*'] := by
    rintro ⟨before', after', heq⟩
    have hle := h.2 before' (after' ++ ['/']) (by rw [hbody, ← heq, List.append_assoc])
    have hlen := congrArg List.length heq
    simp only [blockEnd, List.length_append, List.length_cons, List.length_nil] at hlen
    omega
  rw [foldlM_step_block hnot]
  simp

end Comment

end StreamLexer
