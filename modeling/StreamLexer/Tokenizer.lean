/-
**Tokenizers.**

A tokenizer is a source of characters and one character of lookahead.  All reading happens in one
place: the lookahead is offered to the scanner, and as long as the scanner accepts it, the source
is asked for the next.  The lookahead of a fresh tokenizer is a blank, so nothing is read before
the first token is asked for; once the source has answered none, the lookahead is none, and the
source is not asked again.

Main definitions:

* `StreamLexer.Tokenizer` — a source and a lookahead;
* `StreamLexer.Tokenizer.nextToken` — **the next token**;
* `StreamLexer.Tokenizer.next?`, `StreamLexer.Tokenizer.collect`, `StreamLexer.Tokenizer.take` —
  the tokens before the end of the input, one, all, or at most so many;
* `StreamLexer.tokenize` — the tokens of a text.

Main results:

* `StreamLexer.Tokenizer.pending_nextToken_lt` — a token other than the end of the input uses up
  characters, so collecting ends.
-/

import StreamLexer.Scan
import StreamLexer.Source.Utf8Decoder

set_option relaxedAutoImplicit false
set_option autoImplicit false

namespace StreamLexer

/-- A source of characters with one character of lookahead; `none` is the end of the input. -/
structure Tokenizer (σ : Type) where
  source : σ
  lookahead : Option Char := some ' '
deriving DecidableEq, Repr

namespace Tokenizer

variable {σ : Type} [CharSource σ]

/-- A tokenizer that has read nothing yet. -/
def ofSource (s : σ) : Tokenizer σ := ⟨s, some ' '⟩

/-- A tokenizer over a text. -/
def ofString (s : String) : Tokenizer TextCursor := ofSource (.ofString s)

/-- A tokenizer over a byte reader. -/
def ofReader (r : ByteReader) : Tokenizer Utf8Decoder := ofSource (.ofReader r)

/-- A bound on the characters that the tokenizer has still to scan, the lookahead included.  At the
end of the input it is zero, whatever the source would still offer. -/
def pending (t : Tokenizer σ) : Nat :=
  match t.lookahead with
  | none => 0
  | some _ => CharSource.remaining t.source + 1

/-- The tokenizer after its lookahead has been accepted. -/
def advance (t : Tokenizer σ) : Tokenizer σ :=
  let (c, s) := CharSource.next t.source
  ⟨s, c⟩

theorem pending_advance_lt {t : Tokenizer σ} {c : Char} (h : t.lookahead = some c) :
    t.advance.pending < t.pending := by
  obtain ⟨s, lookahead⟩ := t
  obtain rfl : lookahead = some c := h
  cases hn : CharSource.next s with
  | mk o s' =>
      cases o with
      | none => simp [advance, pending, hn]
      | some d => simpa [advance, pending, hn] using CharSource.remaining_lt hn

/-- Scans on from `state`: as long as the lookahead is accepted, the next character takes its
place. -/
def scanFrom (state : Scan) (t : Tokenizer σ) : Token × Tokenizer σ :=
  match _h : t.lookahead with
  | none => (state.token, t)
  | some c =>
      match state.step c with
      | none => (state.token, t)
      | some state' => scanFrom state' t.advance
termination_by t.pending
decreasing_by exact pending_advance_lt _h

/-- At the end of the input what has been read is the token. -/
theorem scanFrom_of_none {state : Scan} {t : Tokenizer σ} (h : t.lookahead = none) :
    scanFrom state t = (state.token, t) := by
  obtain ⟨s, lookahead⟩ := t
  obtain rfl : lookahead = none := h
  rw [scanFrom]

/-- Before the end of the input the scanner decides whether the lookahead belongs to the token. -/
theorem scanFrom_of_some {state : Scan} {t : Tokenizer σ} {c : Char}
    (h : t.lookahead = some c) :
    scanFrom state t = match state.step c with
      | none => (state.token, t)
      | some state' => scanFrom state' t.advance := by
  obtain ⟨s, lookahead⟩ := t
  obtain rfl : lookahead = some c := h
  rw [scanFrom]

/-- **The next token.**  At the end of the input it is `Token.endOfInput`, time and again. -/
def nextToken (t : Tokenizer σ) : Token × Tokenizer σ := scanFrom .start t

theorem pending_scanFrom_le (state : Scan) (t : Tokenizer σ) :
    (scanFrom state t).2.pending ≤ t.pending := by
  fun_induction scanFrom state t with
  | case1 state t h => exact Nat.le_refl _
  | case2 state t c h hs => exact Nat.le_refl _
  | case3 state t c h state' hs ih => exact Nat.le_trans ih (Nat.le_of_lt (pending_advance_lt h))

/-- **A token other than the end of the input uses up characters.** -/
theorem pending_nextToken_lt {t : Tokenizer σ} (h : t.nextToken.1 ≠ .endOfInput) :
    t.nextToken.2.pending < t.pending := by
  cases hl : t.lookahead with
  | none => exact absurd (congrArg Prod.fst (scanFrom_of_none hl)) h
  | some c =>
      have hstep : t.nextToken = scanFrom (.enter c) t.advance := scanFrom_of_some hl
      rw [hstep]
      exact Nat.lt_of_le_of_lt (pending_scanFrom_le _ _) (pending_advance_lt hl)

/-- The next token, or `none` at the end of the input. -/
def next? (t : Tokenizer σ) : Option Token × Tokenizer σ :=
  match t.nextToken with
  | (.endOfInput, t') => (none, t')
  | (token, t') => (some token, t')

/-- At the end of the input there is no next token. -/
theorem next?_of_end {t t' : Tokenizer σ} (h : t.nextToken = (.endOfInput, t')) :
    t.next? = (none, t') := by
  unfold next?
  rw [h]

/-- Before the end of the input the next token is there to be had. -/
theorem next?_of_token {t t' : Tokenizer σ} {token : Token} (h : t.nextToken = (token, t'))
    (hne : token ≠ .endOfInput) : t.next? = (some token, t') := by
  unfold next?
  rw [h]
  cases token with
  | endOfInput => exact absurd rfl hne
  | keyword k => rfl
  | primitiveType p => rfl
  | identifier name => rfl
  | number x => rfl
  | symbol c => rfl

/-- None is returned for the end of the input only. -/
theorem nextToken_of_next?_none {t t' : Tokenizer σ} (h : t.next? = (none, t')) :
    t.nextToken = (.endOfInput, t') := by
  rcases ht : t.nextToken with ⟨token, u⟩
  by_cases he : token = .endOfInput
  · subst he
    rw [next?_of_end ht] at h
    rw [(Prod.mk.inj h).2]
  · rw [next?_of_token ht he] at h
    simp at h

/-- What is returned is the next token. -/
theorem nextToken_of_next?_some {t t' : Tokenizer σ} {token : Token}
    (h : t.next? = (some token, t')) : t.nextToken = (token, t') ∧ token ≠ .endOfInput := by
  rcases ht : t.nextToken with ⟨token', u⟩
  by_cases he : token' = .endOfInput
  · subst he
    rw [next?_of_end ht] at h
    simp at h
  · rw [next?_of_token ht he] at h
    obtain ⟨htoken, rfl⟩ := Prod.mk.inj h
    obtain rfl := Option.some.inj htoken
    exact ⟨rfl, he⟩

theorem pending_next?_lt {t t' : Tokenizer σ} {token : Token} (h : t.next? = (some token, t')) :
    t'.pending < t.pending := by
  obtain ⟨hnext, hne⟩ := nextToken_of_next?_some h
  have hlt : t.nextToken.1 ≠ .endOfInput → t.nextToken.2.pending < t.pending :=
    pending_nextToken_lt
  rw [hnext] at hlt
  exact hlt hne

/-- All tokens before the end of the input. -/
def collect (t : Tokenizer σ) : List Token × Tokenizer σ :=
  match _h : t.next? with
  | (none, t') => ([], t')
  | (some token, t') =>
      let (tokens, t'') := collect t'
      (token :: tokens, t'')
termination_by t.pending
decreasing_by exact pending_next?_lt _h

theorem collect_of_none {t t' : Tokenizer σ} (h : t.next? = (none, t')) :
    t.collect = ([], t') := by
  rw [collect]
  split
  · next heq => rw [h] at heq; rw [(Prod.mk.inj heq).2]
  · next heq => rw [h] at heq; simp at heq

theorem collect_of_some {t t' : Tokenizer σ} {token : Token} (h : t.next? = (some token, t')) :
    t.collect = (token :: t'.collect.1, t'.collect.2) := by
  rw [collect]
  split
  · next heq => rw [h] at heq; simp at heq
  · next heq =>
      rw [h] at heq
      obtain ⟨htoken, rfl⟩ := Prod.mk.inj heq
      rw [Option.some.inj htoken]

/-- At most `n` tokens before the end of the input.  No token is read beyond the last one
returned. -/
def take : Nat → Tokenizer σ → List Token × Tokenizer σ
  | 0, t => ([], t)
  | n + 1, t =>
      match t.next? with
      | (none, t') => ([], t')
      | (some token, t') =>
          let (tokens, t'') := take n t'
          (token :: tokens, t'')

end Tokenizer

/-- **The tokens of a text**, the end of the input not included. -/
def tokenize (s : String) : List Token := (Tokenizer.ofString s).collect.1

end StreamLexer
