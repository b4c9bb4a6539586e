/-
**The scanner on a whole text.**

`StreamLexer.Tokenizer.scanFrom` follows the transitions of the scanner for one token, reading as
it goes.  What it reads is determined by the characters that its source has to give.  So the scanner
is taken here as a machine that answers each character with the tokens which that character
completes — at most one — and what a tokenizer collects is the answers to the characters before it,
and the token that is left when they end.

Main definitions:

* `StreamLexer.Scan.completed` — the token of a state, none at rest and inside a comment;
* `StreamLexer.Scan.after`, `StreamLexer.Scan.passed` — the state after a text, and the tokens
  completed on the way;
* `StreamLexer.Scan.tokens` — **the tokens of a text**;
* `StreamLexer.Tokenizer.unread` — the characters before a tokenizer, the lookahead included.

Main results:

* `StreamLexer.Scan.tokens_append` — the tokens of a text that is read in two parts;
* `StreamLexer.Tokenizer.scanFrom_unread` — one token of the characters before a tokenizer;
* `StreamLexer.Tokenizer.collect_fst`, `StreamLexer.tokenize_eq_tokens` — **tokenizers collect the
  tokens of the text**.
-/

import StreamLexer.Tokenizer

set_option relaxedAutoImplicit false
set_option autoImplicit false

namespace StreamLexer

/-- The token of a word is not the end of the input. -/
theorem Token.ofWord_ne_endOfInput (cs : List Char) : Token.ofWord cs ≠ .endOfInput := by
  simp only [Token.ofWord]
  split
  · simp
  · split <;> simp

namespace Scan

/-! ### The machine -/

/-- The token that is complete when nothing more belongs to it; at rest and inside a comment there
is none. -/
def completed : Scan → List Token
  | start => []
  | comment _ => []
  | state => [state.token]

@[simp] theorem completed_start : completed start = [] := rfl

@[simp] theorem completed_comment (k : Comment) : completed (comment k) = [] := rfl

@[simp] theorem completed_word (cs : List Char) :
    completed (word cs) = [.ofWord cs.reverse] := rfl

@[simp] theorem completed_number (cs : List Char) :
    completed (number cs) = [.ofNumber cs.reverse] := rfl

@[simp] theorem completed_slash : completed slash = [.symbol '/'] := rfl

@[simp] theorem completed_symbol (c : Char) : completed (symbol c) = [.symbol c] := rfl

/-- A state completes its token, unless that is the end of the input. -/
theorem completed_eq (state : Scan) :
    (state.token = .endOfInput ∧ state.completed = []) ∨
      (state.token ≠ .endOfInput ∧ state.completed = [state.token]) := by
  cases state with
  | start => exact Or.inl ⟨rfl, rfl⟩
  | comment k => exact Or.inl ⟨rfl, rfl⟩
  | word cs => exact Or.inr ⟨Token.ofWord_ne_endOfInput _, rfl⟩
  | number cs => exact Or.inr ⟨by simp [token, Token.ofNumber], rfl⟩
  | slash => exact Or.inr ⟨by simp [token], rfl⟩
  | symbol c => exact Or.inr ⟨by simp [token], rfl⟩

/-- A state completes one token at most. -/
theorem length_completed_le (state : Scan) : state.completed.length ≤ 1 := by
  rcases completed_eq state with ⟨_, hc⟩ | ⟨_, hc⟩
  · rw [hc]
    exact Nat.zero_le 1
  · rw [hc]
    exact Nat.le_refl 1

/-- Only at rest and inside a comment is every character accepted, so a state that refuses one has
a token. -/
theorem completed_of_step_eq_none {state : Scan} {c : Char} (h : state.step c = none) :
    state.token ≠ .endOfInput ∧ state.completed = [state.token] := by
  rcases completed_eq state with ⟨he, _⟩ | h'
  · cases state with
    | start => simp [step] at h
    | comment k => cases hk : k.step c <;> simp [step, hk] at h
    | word cs => exact absurd he (Token.ofWord_ne_endOfInput _)
    | number cs => simp [token, Token.ofNumber] at he
    | slash => simp [token] at he
    | symbol d => simp [token] at he
  · exact h'

/-- The state after one more character, whether it belongs to the token or to what follows. -/
def advance (state : Scan) (c : Char) : Scan := (state.step c).getD (enter c)

/-- The token that one more character completes, if it belongs to what follows. -/
def released (state : Scan) (c : Char) : List Token :=
  match state.step c with
  | some _ => []
  | none => state.completed

/-- The state after a text. -/
def after (state : Scan) (cs : List Char) : Scan := cs.foldl advance state

/-- The tokens completed on the way through a text. -/
def passed : Scan → List Char → List Token
  | _, [] => []
  | state, c :: cs => state.released c ++ passed (state.advance c) cs

/-- **The tokens of a text**, from any state: those completed on the way, and the one that is left
when the text ends. -/
def tokens (state : Scan) (cs : List Char) : List Token :=
  passed state cs ++ (after state cs).completed

@[simp] theorem tokens_nil (state : Scan) : tokens state [] = state.completed := rfl

@[simp] theorem advance_start (c : Char) : advance start c = enter c := rfl

@[simp] theorem released_start (c : Char) : released start c = [] := rfl

theorem advance_of_some {state state' : Scan} {c : Char} (h : state.step c = some state') :
    advance state c = state' := by
  simp [advance, h]

theorem advance_of_none {state : Scan} {c : Char} (h : state.step c = none) :
    advance state c = enter c := by
  simp [advance, h]

theorem tokens_cons (state : Scan) (c : Char) (cs : List Char) :
    tokens state (c :: cs) = state.released c ++ tokens (state.advance c) cs := by
  simp [tokens, passed, after]

theorem tokens_start_cons (c : Char) (cs : List Char) :
    tokens start (c :: cs) = tokens (enter c) cs := by
  rw [tokens_cons, released_start, advance_start, List.nil_append]

/-- A character that is accepted completes nothing. -/
theorem tokens_cons_of_some {state state' : Scan} {c : Char} (h : state.step c = some state')
    (cs : List Char) : tokens state (c :: cs) = tokens state' cs := by
  rw [tokens_cons, advance_of_some h, released, h, List.nil_append]

/-- A character that is refused completes the token and is scanned again from rest. -/
theorem tokens_cons_of_none {state : Scan} {c : Char} (h : state.step c = none)
    (cs : List Char) : tokens state (c :: cs) = state.token :: tokens start (c :: cs) := by
  rw [tokens_cons, advance_of_none h, tokens_start_cons, released, h,
    (completed_of_step_eq_none h).2, List.singleton_append]

@[simp] theorem after_cons (state : Scan) (c : Char) (cs : List Char) :
    after state (c :: cs) = after (state.advance c) cs := rfl

theorem after_append (state : Scan) (u v : List Char) :
    after state (u ++ v) = after (after state u) v :=
  List.foldl_append

/-- **The tokens of a text that is read in two parts.** -/
theorem tokens_append (state : Scan) (u v : List Char) :
    tokens state (u ++ v) = passed state u ++ tokens (after state u) v := by
  induction u generalizing state with
  | nil => rfl
  | cons c u ih => rw [List.cons_append, tokens_cons, ih, passed, after_cons, List.append_assoc]

/-- Characters that are all accepted take the scanner on and complete nothing. -/
theorem after_passed_of_foldlM {state state' : Scan} {u : List Char}
    (h : u.foldlM step state = some state') : after state u = state' ∧ passed state u = [] := by
  induction u generalizing state with
  | nil => exact ⟨Option.some_inj.1 h, rfl⟩
  | cons c u ih =>
      obtain ⟨s, hs, hu⟩ := Option.bind_eq_some_iff.1 h
      obtain ⟨hafter, hpassed⟩ := ih hu
      rw [after_cons, passed, advance_of_some hs, released, hs]
      exact ⟨hafter, hpassed⟩

theorem tokens_append_of_foldlM {state state' : Scan} {u : List Char}
    (h : u.foldlM step state = some state') (v : List Char) :
    tokens state (u ++ v) = tokens state' v := by
  obtain ⟨hafter, hpassed⟩ := after_passed_of_foldlM h
  rw [tokens_append, hafter, hpassed, List.nil_append]

/-- Where a token stops, the scanner is at rest again. -/
theorem tokens_of_stop {state : Scan} {v : List Char} (h : ∀ c ∈ v.head?, state.step c = none) :
    tokens state v = state.completed ++ tokens start v := by
  cases v with
  | nil => simp
  | cons c v =>
      have hc : state.step c = none := h c rfl
      rw [tokens_cons_of_none hc, (completed_of_step_eq_none hc).2, List.singleton_append]

/-- A token takes at least one character, of the text or of what the state has read. -/
theorem length_tokens_le (state : Scan) (cs : List Char) :
    (tokens state cs).length ≤ cs.length + state.completed.length := by
  induction cs generalizing state with
  | nil => simp
  | cons c cs ih =>
      cases hs : state.step c with
      | some state' =>
          have hle := ih state'
          have hle' := length_completed_le state'
          rw [tokens_cons_of_some hs, List.length_cons]
          omega
      | none =>
          have hle := ih (enter c)
          have hle' := length_completed_le (enter c)
          rw [tokens_cons_of_none hs, tokens_start_cons, (completed_of_step_eq_none hs).2]
          simp only [List.length_cons, List.length_nil]
          omega

end Scan

/-! ### Tokenizers -/

namespace Tokenizer

open Scan

variable {σ : Type} [CharSource σ] {t : Tokenizer σ}

/-- The characters that a tokenizer has still to scan: its lookahead, and all that the source gives
before it first answers none. -/
def unread (t : Tokenizer σ) : List Char :=
  match t.lookahead with
  | none => []
  | some c => c :: (CharSource.readAll t.source).1

theorem unread_of_none (h : t.lookahead = none) : t.unread = [] := by
  rw [unread, h]

/-- Accepting the lookahead leaves the characters after it. -/
theorem unread_of_some {c : Char} (h : t.lookahead = some c) : t.unread = c :: t.advance.unread := by
  rw [unread, h]
  rcases hn : CharSource.next t.source with ⟨o, s⟩
  have hadvance : t.advance = ⟨s, o⟩ := by rw [advance, hn]
  cases o with
  | none => rw [hadvance, CharSource.readAll_of_none hn, unread_of_none rfl]
  | some d => rw [hadvance, CharSource.readAll_of_some hn, unread]

/-- A fresh tokenizer has a blank before the text. -/
theorem unread_ofString (s : String) : (ofString s).unread = ' ' :: s.toList :=
  congrArg (' ' :: ·) (TextCursor.readAll_fst (.ofString s))

/-- **One token.**  The end of the input comes when there are no tokens in what is unread, and then
the source has answered none; else the token is the first of them, and the others are the tokens of
what is left unread. -/
theorem scanFrom_unread (state : Scan) (t : Tokenizer σ) :
    ((scanFrom state t).1 = .endOfInput ∧ state.tokens t.unread = [] ∧
        (scanFrom state t).2.lookahead = none) ∨
      ((scanFrom state t).1 ≠ .endOfInput ∧
        state.tokens t.unread = (scanFrom state t).1 :: start.tokens (scanFrom state t).2.unread) := by
  fun_induction scanFrom state t with
  | case1 state t h =>
      rw [unread_of_none h, tokens_nil, tokens_nil]
      rcases completed_eq state with ⟨he, hc⟩ | ⟨hne, hc⟩
      · exact Or.inl ⟨he, hc, h⟩
      · exact Or.inr ⟨hne, hc⟩
  | case2 state t c h hs =>
      rw [unread_of_some h]
      exact Or.inr ⟨(completed_of_step_eq_none hs).1, tokens_cons_of_none hs _⟩
  | case3 state t c h state' hs ih =>
      rw [unread_of_some h, tokens_cons_of_some hs]
      exact ih

/-- While there are tokens in what is unread, the next token is the first of them. -/
theorem nextToken_of_tokens_cons {token : Token} {others : List Token}
    (h : start.tokens t.unread = token :: others) :
    ∃ t', t.nextToken = (token, t') ∧ token ≠ .endOfInput ∧ start.tokens t'.unread = others := by
  rcases scanFrom_unread start t with ⟨_, hnil, _⟩ | ⟨hne, hcons⟩
  · rw [hnil] at h
    exact absurd h (List.cons_ne_nil _ _).symm
  · rw [h] at hcons
    obtain ⟨rfl, ho⟩ := List.cons.inj hcons
    exact ⟨(scanFrom start t).2, rfl, hne, ho.symm⟩

/-- When no tokens are left in what is unread, the end of the input is reported, and the source has
answered none. -/
theorem nextToken_of_tokens_nil (h : start.tokens t.unread = []) :
    ∃ t', t.nextToken = (.endOfInput, t') ∧ t'.lookahead = none := by
  rcases scanFrom_unread start t with ⟨he, _, hl⟩ | ⟨_, hcons⟩
  · exact ⟨(scanFrom start t).2, Prod.ext he rfl, hl⟩
  · rw [h] at hcons
    exact absurd hcons (List.cons_ne_nil _ _).symm

/-- **Collecting** gives the tokens of what is unread. -/
theorem collect_fst (t : Tokenizer σ) : t.collect.1 = start.tokens t.unread := by
  -- on the tokens, not on the characters: a call uses up a token and any number of characters
  induction hts : start.tokens t.unread generalizing t with
  | nil =>
      obtain ⟨t', hnext, _⟩ := nextToken_of_tokens_nil hts
      rw [collect_of_none (next?_of_end hnext)]
  | cons token others ih =>
      obtain ⟨t', hnext, hne, hothers⟩ := nextToken_of_tokens_cons hts
      rw [collect_of_some (next?_of_token hnext hne), ih t' hothers]

end Tokenizer

/-- **The tokens of a text are those of the scanner**: the blank before it makes no difference. -/
theorem tokenize_eq_tokens (s : String) : tokenize s = Scan.start.tokens s.toList := by
  rw [tokenize, Tokenizer.collect_fst, Tokenizer.unread_ofString, Scan.tokens_start_cons]
  rfl

end StreamLexer
