/-
**Uses of a tokenizer as calls for the next token.**

Asking for a token, for one if there is one, for all, for so many, or writing them: each of these is
a number of calls for the next token and nothing else, and what it comes to depends on the tokens of
these calls alone.  So what holds of calls holds of every use.

Main definitions:

* `StreamLexer.Tokenizer.calls` — so many calls for the next token;
* `StreamLexer.Step.usesTokenizer` — the steps that are such uses;
* `StreamLexer.Step.outcomeOf` — what a use comes to, from the tokens of its calls.

Main results:

* `StreamLexer.Tokenizer.calls_fst` — **the tokens of the calls** are those of the characters
  before the tokenizer, and the end of the input again and again;
* `StreamLexer.Step.exists_calls` — **each use is a number of calls**.
-/

import StreamLexer.Proofs.TextScan
import StreamLexer.Session

set_option relaxedAutoImplicit false
set_option autoImplicit false

namespace StreamLexer

variable {σ : Type}

/-! ### Calls -/

namespace Tokenizer

variable [CharSource σ]

/-- The tokens of so many calls for the next token, the end of the input included. -/
def calls : Nat → Tokenizer σ → List Token × Tokenizer σ
  | 0, t => ([], t)
  | k + 1, t =>
      let (token, t') := t.nextToken
      let (tokens, t'') := calls k t'
      (token :: tokens, t'')

@[simp] theorem calls_zero (t : Tokenizer σ) : calls 0 t = ([], t) := rfl

theorem calls_succ_of_nextToken {t t' : Tokenizer σ} {token : Token}
    (h : t.nextToken = (token, t')) (k : Nat) :
    calls (k + 1) t = (token :: (calls k t').1, (calls k t').2) := by
  simp only [calls, h]

theorem length_calls (k : Nat) (t : Tokenizer σ) : (calls k t).1.length = k := by
  induction k generalizing t with
  | zero => rfl
  | succ k ih =>
      rcases ht : t.nextToken with ⟨token, t'⟩
      rw [calls_succ_of_nextToken ht, List.length_cons, ih]

theorem calls_add (m n : Nat) (t : Tokenizer σ) :
    calls (m + n) t = ((calls m t).1 ++ (calls n (calls m t).2).1, (calls n (calls m t).2).2) := by
  induction m generalizing t with
  | zero => simp
  | succ m ih =>
      rcases ht : t.nextToken with ⟨token, t'⟩
      rw [Nat.succ_add, calls_succ_of_nextToken ht, calls_succ_of_nextToken ht, ih,
        List.cons_append]

/-- At the end of the input calls report it, and change nothing. -/
theorem calls_of_none {t : Tokenizer σ} (h : t.lookahead = none) (k : Nat) :
    calls k t = (List.replicate k .endOfInput, t) := by
  induction k with
  | zero => rfl
  | succ k ih =>
      have hnext : t.nextToken = (.endOfInput, t) := scanFrom_of_none h
      rw [calls_succ_of_nextToken hnext, ih, List.replicate_succ]

/-- **The tokens of calls** are those of the characters before the tokenizer, and after them the end
of the input. -/
theorem calls_fst (k : Nat) (t : Tokenizer σ) :
    (calls k t).1 = (Scan.start.tokens t.unread).take k ++
      List.replicate (k - (Scan.start.tokens t.unread).length) Token.endOfInput := by
  induction k generalizing t with
  | zero => simp
  | succ k ih =>
      cases hts : Scan.start.tokens t.unread with
      | nil =>
          obtain ⟨t', hnext, hl⟩ := nextToken_of_tokens_nil hts
          rw [calls_succ_of_nextToken hnext, calls_of_none hl]
          rfl
      | cons token others =>
          obtain ⟨t', hnext, _, hothers⟩ := nextToken_of_tokens_cons hts
          rw [calls_succ_of_nextToken hnext, ih, hothers, List.take_succ_cons, List.length_cons,
            Nat.add_sub_add_right, List.cons_append]

/-- More calls than there are tokens find the end of the input. -/
theorem lookahead_calls {k : Nat} {t : Tokenizer σ} (h : (Scan.start.tokens t.unread).length < k) :
    (calls k t).2.lookahead = none := by
  induction k generalizing t with
  | zero => exact absurd h (Nat.not_lt_zero _)
  | succ k ih =>
      cases hts : Scan.start.tokens t.unread with
      | nil =>
          obtain ⟨t', hnext, hl⟩ := nextToken_of_tokens_nil hts
          rw [calls_succ_of_nextToken hnext, calls_of_none hl]
          exact hl
      | cons token others =>
          obtain ⟨t', hnext, _, hothers⟩ := nextToken_of_tokens_cons hts
          rw [hts, List.length_cons, ← hothers] at h
          rw [calls_succ_of_nextToken hnext]
          exact ih (Nat.lt_of_succ_lt_succ h)

end Tokenizer

/-! ### Uses -/

/-- The tokens before the end of the input. -/
def beforeEnd (tokens : List Token) : List Token := tokens.filter (· ≠ .endOfInput)

/-- What writing comes to when `count` tokens have been written and `tokens` come next. -/
def writtenFrom (config : Config) (count : Nat) (tokens : List Token) (sink : Sink) :
    Except Refusal Nat × Sink :=
  if config.limitReached count then (.ok count, sink)
  else
    match tokens with
    | [] => (.ok count, sink)
    | token :: tokens =>
        if token = .endOfInput then
          if config.emitEndOfInput then
            match sink.write (Token.endOfInput.line config.format) with
            | (none, sink') => (.ok count, sink')
            | (some refusal, sink') => (.error refusal, sink')
          else (.ok count, sink)
        else
          match sink.write (token.line config.format) with
          | (none, sink') => writtenFrom config (count + 1) tokens sink'
          | (some refusal, sink') => (.error refusal, sink')

namespace Step

/-- The steps that ask the tokenizer for tokens. -/
def usesTokenizer : Step → Bool
  | nextToken | next | collect | take _ | write _ _ => true
  | _ => false

/-- **What a use comes to**, from the tokens of its calls; other steps make none. -/
def outcomeOf (step : Step) (tokens : List Token) : Outcome σ :=
  match step with
  | nextToken => .token (tokens.headD .endOfInput)
  | next => .token? (beforeEnd tokens).head?
  | collect => .tokens (beforeEnd tokens)
  | take _ => .tokens (beforeEnd tokens)
  | write config sink =>
      let (result, sink') := writtenFrom config 0 tokens sink
      .written result sink'
  | _ => .done

end Step

@[simp] theorem beforeEnd_nil : beforeEnd [] = [] := rfl

@[simp] theorem beforeEnd_end_cons (tokens : List Token) :
    beforeEnd (.endOfInput :: tokens) = beforeEnd tokens := by
  simp [beforeEnd]

theorem beforeEnd_cons {token : Token} (h : token ≠ .endOfInput) (tokens : List Token) :
    beforeEnd (token :: tokens) = token :: beforeEnd tokens := by
  simp [beforeEnd, h]

section Calls

variable [CharSource σ] (t : Tokenizer σ)

open Tokenizer

theorem exists_calls_next? :
    ∃ k, t.next? = ((beforeEnd (calls k t).1).head?, (calls k t).2) := by
  refine ⟨1, ?_⟩
  rcases ht : t.next? with ⟨o, t'⟩
  cases o with
  | none =>
      rw [calls_succ_of_nextToken (nextToken_of_next?_none ht)]
      rfl
  | some token =>
      obtain ⟨hnext, hne⟩ := nextToken_of_next?_some ht
      rw [calls_succ_of_nextToken hnext, beforeEnd_cons hne]
      rfl

theorem exists_calls_collect :
    ∃ k, t.collect = (beforeEnd (calls k t).1, (calls k t).2) := by
  fun_induction collect t with
  | case1 t t' ht =>
      refine ⟨1, ?_⟩
      rw [calls_succ_of_nextToken (nextToken_of_next?_none ht)]
      rfl
  | case2 t token t' ht tokens t'' hrest ih =>
      obtain ⟨k, hk⟩ := ih
      obtain ⟨hnext, hne⟩ := nextToken_of_next?_some ht
      refine ⟨k + 1, ?_⟩
      rw [calls_succ_of_nextToken hnext, beforeEnd_cons hne]
      rw [hrest] at hk
      obtain ⟨rfl, rfl⟩ := Prod.mk.inj hk
      rfl

theorem exists_calls_take (n : Nat) :
    ∃ k, t.take n = (beforeEnd (calls k t).1, (calls k t).2) := by
  induction n generalizing t with
  | zero => exact ⟨0, rfl⟩
  | succ n ih =>
      rcases ht : t.next? with ⟨o, t'⟩
      cases o with
      | none =>
          refine ⟨1, ?_⟩
          rw [calls_succ_of_nextToken (nextToken_of_next?_none ht), take, ht]
          rfl
      | some token =>
          obtain ⟨k, hk⟩ := ih t'
          obtain ⟨hnext, hne⟩ := nextToken_of_next?_some ht
          refine ⟨k + 1, ?_⟩
          rw [calls_succ_of_nextToken hnext, beforeEnd_cons hne, take, ht]
          simp only [hk]

/-- **Writing is a number of calls.** -/
theorem exists_calls_writeTokensFrom (config : Config) (count : Nat) (sink : Sink) :
    ∃ k, writeTokensFrom config count t sink =
      ⟨(writtenFrom config count (calls k t).1 sink).1, (calls k t).2,
        (writtenFrom config count (calls k t).1 sink).2⟩ := by
  fun_induction writeTokensFrom config count t sink with
  | case1 count t sink hl =>
      refine ⟨0, ?_⟩
      rw [calls_zero, writtenFrom, if_pos hl]
  | case2 count t sink hl t' ht he sink' hw =>
      refine ⟨1, ?_⟩
      rw [calls_succ_of_nextToken (nextToken_of_next?_none ht), writtenFrom, if_neg hl]
      simp only [if_true, he, hw]
      rfl
  | case3 count t sink hl t' ht he refusal sink' hw =>
      refine ⟨1, ?_⟩
      rw [calls_succ_of_nextToken (nextToken_of_next?_none ht), writtenFrom, if_neg hl]
      simp only [if_true, he, hw]
      rfl
  | case4 count t sink hl t' ht he =>
      refine ⟨1, ?_⟩
      rw [calls_succ_of_nextToken (nextToken_of_next?_none ht), writtenFrom, if_neg hl]
      simp only [if_true, he]
      rfl
  | case5 count t sink hl token t' ht sink' hw ih =>
      obtain ⟨k, hk⟩ := ih
      obtain ⟨hnext, hne⟩ := nextToken_of_next?_some ht
      refine ⟨k + 1, ?_⟩
      rw [calls_succ_of_nextToken hnext, writtenFrom, if_neg hl]
      simp only [hne, if_false, hw]
      exact hk
  | case6 count t sink hl token t' ht refusal sink' hw =>
      obtain ⟨hnext, hne⟩ := nextToken_of_next?_some ht
      refine ⟨1, ?_⟩
      rw [calls_succ_of_nextToken hnext, writtenFrom, if_neg hl]
      simp only [hne, if_false, hw]
      rfl

end Calls

/-- **Each use of a tokenizer is a number of calls**, and comes to what their tokens tell. -/
theorem Step.exists_calls [ObservedSource σ] {step : Step} (h : step.usesTokenizer = true)
    (t : Tokenizer σ) :
    ∃ k, step.perform t = (step.outcomeOf (t.calls k).1, (t.calls k).2) := by
  cases step with
  | nextToken => exact ⟨1, rfl⟩
  | next =>
      obtain ⟨k, hk⟩ := exists_calls_next? t
      exact ⟨k, by simp only [perform, outcomeOf, hk]⟩
  | collect =>
      obtain ⟨k, hk⟩ := exists_calls_collect t
      exact ⟨k, by simp only [perform, outcomeOf, hk]⟩
  | take n =>
      obtain ⟨k, hk⟩ := exists_calls_take t n
      exact ⟨k, by simp only [perform, outcomeOf, hk]⟩
  | write config sink =>
      obtain ⟨k, hk⟩ := exists_calls_writeTokensFrom t config 0 sink
      refine ⟨k, ?_⟩
      simp only [perform, outcomeOf, writeTokens, hk]
  | _ => simp [usesTokenizer] at h

end StreamLexer
