/-
**Tokens before the text is complete.**

A tokenizer that has a character ahead has not seen the end of its text, and whatever it has
returned so far it would have returned of every longer text as well: it stands at the same place,
with more before it.  Only the token that the end of the text completes may turn out otherwise, and
that is the last one.

Main definitions:

* `StreamLexer.TextCursor.extend`, `StreamLexer.Tokenizer.extend` — the same place in a longer text.

Main results:

* `StreamLexer.Tokenizer.scanFrom_extend` — **what one token preserves**: a token that leaves a
  character ahead is the same in a longer text;
* `StreamLexer.Tokenizer.calls_extend` — **what a run preserves**: any number of calls that leave a
  character ahead return the same tokens in a longer text;
* `StreamLexer.calls_append_stable` — **tokens do not depend on the text that follows**, the last
  one apart.
-/

import StreamLexer.Proofs.Calls

set_option relaxedAutoImplicit false
set_option autoImplicit false

namespace StreamLexer

namespace TextCursor

/-- The same place in a longer text. -/
def extend (s : TextCursor) (more : List Char) : TextCursor := ⟨s.unread ++ more⟩

/-- A character that the shorter text gives, the longer text gives too. -/
theorem next_extend {s s' : TextCursor} {c : Char} (h : CharSource.next s = (some c, s'))
    (more : List Char) : CharSource.next (s.extend more) = (some c, s'.extend more) := by
  obtain ⟨unread⟩ := s
  cases unread with
  | nil => exact absurd (congrArg Prod.fst h) (Option.some_ne_none c).symm
  | cons d cs =>
      obtain ⟨hc, rfl⟩ := Prod.mk.inj h
      obtain rfl := Option.some.inj hc
      rfl

end TextCursor

namespace Tokenizer

/-- The same place in a longer text, with the same character ahead. -/
def extend (t : Tokenizer TextCursor) (more : List Char) : Tokenizer TextCursor :=
  ⟨t.source.extend more, t.lookahead⟩

theorem extend_ofString (u v : String) : (ofString u).extend v.toList = ofString (u ++ v) := by
  simp [extend, ofString, ofSource, TextCursor.extend, TextCursor.ofString]

variable {t : Tokenizer TextCursor}

/-- As long as a character is ahead after it, accepting the lookahead goes alike. -/
theorem advance_extend (h : t.advance.lookahead ≠ none) (more : List Char) :
    (t.extend more).advance = t.advance.extend more := by
  rcases hn : CharSource.next t.source with ⟨o, s⟩
  have hadvance : t.advance = ⟨s, o⟩ := by rw [advance, hn]
  cases o with
  | none => exact absurd (congrArg Tokenizer.lookahead hadvance) h
  | some c =>
      have hnext : CharSource.next (t.extend more).source = (some c, s.extend more) :=
        TextCursor.next_extend hn more
      rw [hadvance, advance, hnext]
      rfl

/-- **A token that leaves a character ahead** is the same in a longer text, and leaves the
tokenizer at the same place. -/
theorem scanFrom_extend {state : Scan} (h : (scanFrom state t).2.lookahead ≠ none)
    (more : List Char) :
    scanFrom state (t.extend more) = ((scanFrom state t).1, (scanFrom state t).2.extend more) := by
  fun_induction scanFrom state t with
  | case1 state t hl => exact absurd hl h
  | case2 state t c hl hs =>
      have hl' : (t.extend more).lookahead = some c := hl
      rw [scanFrom_of_some hl', hs]
  | case3 state t c hl state' hs ih =>
      have hl' : (t.extend more).lookahead = some c := hl
      -- with nothing ahead the scan would have stopped there
      have hadvance : t.advance.lookahead ≠ none := by
        intro hnone
        rw [scanFrom_of_none hnone] at h
        exact h hnone
      rw [scanFrom_of_some hl', hs]
      show scanFrom state' (t.extend more).advance = _
      rw [advance_extend hadvance]
      exact ih h

/-- **Calls that leave a character ahead** return the same tokens in a longer text, and leave the
tokenizer at the same place. -/
theorem calls_extend {k : Nat} (h : (calls k t).2.lookahead ≠ none) (more : List Char) :
    calls k (t.extend more) = ((calls k t).1, (calls k t).2.extend more) := by
  induction k generalizing t with
  | zero => rfl
  | succ k ih =>
      rcases ht : t.nextToken with ⟨token, t'⟩
      rw [calls_succ_of_nextToken ht] at h ⊢
      -- a call at the end of the text would have left nothing ahead for good
      have hfirst : t'.lookahead ≠ none := by
        intro hnone
        rw [calls_of_none hnone] at h
        exact h hnone
      have hnext : (t.extend more).nextToken = (token, t'.extend more) := by
        have hscan : scanFrom .start t = (token, t') := ht
        have hextend : (scanFrom .start t).2.lookahead ≠ none := by
          rw [hscan]
          exact hfirst
        rw [nextToken, scanFrom_extend hextend, hscan]
      rw [calls_succ_of_nextToken hnext, ih h]

/-- Calls that leave a character ahead have not found the end of the input. -/
theorem ne_endOfInput_of_mem_calls {σ : Type} [CharSource σ] {t : Tokenizer σ} {k : Nat}
    (h : (calls k t).2.lookahead ≠ none) : ∀ token ∈ (calls k t).1, token ≠ .endOfInput := by
  induction k generalizing t with
  | zero => simp
  | succ k ih =>
      rcases ht : t.nextToken with ⟨token, t'⟩
      rw [calls_succ_of_nextToken ht] at h ⊢
      refine List.forall_mem_cons.2 ⟨?_, ih h⟩
      rintro rfl
      have hend : t'.lookahead = none := by
        rcases scanFrom_unread .start t with ⟨_, _, hl⟩ | ⟨hne, _⟩
        · have hscan : scanFrom .start t = (.endOfInput, t') := ht
          rwa [hscan] at hl
        · exact absurd (congrArg Prod.fst ht) hne
      rw [calls_of_none hend] at h
      exact h hend

end Tokenizer

/-- The tokens completed within a text are those of every longer text. -/
theorem Scan.tokens_append_getElem? (u v : List Char) {i : Nat}
    (h : i + 1 < (start.tokens u).length) :
    (start.tokens (u ++ v))[i]? = (start.tokens u)[i]? := by
  -- at most one token of `u` is completed by its end
  have hone := length_completed_le (start.after u)
  have hi : i < (start.passed u).length := by
    rw [tokens, List.length_append] at h
    omega
  rw [tokens_append, List.getElem?_append_left hi, tokens, List.getElem?_append_left hi]

/-- **Tokens do not depend on the text that follows.**  If so many calls leave a character ahead,
none of them has found the end of the text, and of every longer text they return the same tokens
and leave the same character ahead and the same unread text, followed by what is more.  So all
tokens of a text but the last are found in every longer text, at the same places. -/
theorem calls_append_stable (u v : String) :
    (∀ k, ((Tokenizer.ofString u).calls k).2.lookahead ≠ none →
        (∀ token ∈ ((Tokenizer.ofString u).calls k).1, token ≠ .endOfInput) ∧
        ((Tokenizer.ofString (u ++ v)).calls k).1 = ((Tokenizer.ofString u).calls k).1 ∧
        ((Tokenizer.ofString (u ++ v)).calls k).2.lookahead =
          ((Tokenizer.ofString u).calls k).2.lookahead ∧
        ((Tokenizer.ofString (u ++ v)).calls k).2.source.unread =
          ((Tokenizer.ofString u).calls k).2.source.unread ++ v.toList) ∧
      ∀ i, i + 1 < (tokenize u).length → (tokenize (u ++ v))[i]? = (tokenize u)[i]? := by
  constructor
  · intro k hk
    have hcalls := Tokenizer.calls_extend hk v.toList
    rw [Tokenizer.extend_ofString] at hcalls
    refine ⟨Tokenizer.ne_endOfInput_of_mem_calls hk, ?_⟩
    rw [hcalls]
    exact ⟨rfl, rfl, rfl⟩
  · intro i hi
    rw [tokenize_eq_tokens] at hi
    rw [tokenize_eq_tokens, tokenize_eq_tokens, String.toList_append]
    exact Scan.tokens_append_getElem? u.toList v.toList hi

/-- A slash at the end of a text, which turns into the opening of a comment in a longer text: the
word before it stays. -/
theorem calls_append_stable_at_slash :
    ((Tokenizer.ofString "ab/").calls 1).2.lookahead ≠ none ∧
      ((Tokenizer.ofString ("ab/" ++ "/c")).calls 1).1 = ((Tokenizer.ofString "ab/").calls 1).1 ∧
      ((Tokenizer.ofString ("ab/" ++ "/c")).calls 1).2.lookahead =
        ((Tokenizer.ofString "ab/").calls 1).2.lookahead ∧
      ((Tokenizer.ofString ("ab/" ++ "/c")).calls 1).2.source.unread =
        ((Tokenizer.ofString "ab/").calls 1).2.source.unread ++ "/c".toList ∧
      0 + 1 < (tokenize "ab/").length ∧
      (tokenize ("ab/" ++ "/c"))[0]? = (tokenize "ab/")[0]? := by
  have hahead : ((Tokenizer.ofString "ab/").calls 1).2.lookahead ≠ none := by decide +kernel
  have hlength : 0 + 1 < (tokenize "ab/").length := by decide +kernel
  obtain ⟨hcalls, htokens⟩ := calls_append_stable "ab/" "/c"
  obtain ⟨_, htoken, hlookahead, hunread⟩ := hcalls 1 hahead
  exact ⟨hahead, htoken, hlookahead, hunread, hlength, htokens 0 hlength⟩

end StreamLexer
