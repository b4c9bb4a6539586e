/-
**Sources that answer alike.**

A tokenizer knows its source only by the answers.  Two sources of different kinds that answer every
request alike, and go on doing so, are therefore indistinguishable to it: whatever is done with two
tokenizers over them, and with the sources in between, comes to the same.

Main definitions:

* `StreamLexer.Agree` — equal answers, and related states after them;
* `StreamLexer.CharSource.Simulation` — a relation that requests for characters cannot tell apart;
* `StreamLexer.Tokenizer.Related` — related sources, with the same lookahead;
* `StreamLexer.Outcome.visible` — an outcome without what belongs to the source alone.

Main results:

* `StreamLexer.Tokenizer.scanFrom_agree` — related tokenizers give the same token;
* `StreamLexer.Step.perform_related` — **related tokenizers cannot be told apart in one step**,
  unless it takes the failure of the source.
-/

import StreamLexer.Session

set_option relaxedAutoImplicit false
set_option autoImplicit false

namespace StreamLexer

variable {α σ τ : Type}

/-- Two results have equal answers, and the states after them are related. -/
def Agree (R : σ → τ → Prop) (x : α × σ) (y : α × τ) : Prop := x.1 = y.1 ∧ R x.2 y.2

/-- Where one result is known, so is the answer of the other. -/
theorem Agree.of_left {R : σ → τ → Prop} {x : α × σ} {y : α × τ} {a : α} {s : σ}
    (h : Agree R x y) (hx : x = (a, s)) : ∃ t, y = (a, t) ∧ R s t := by
  subst hx
  obtain ⟨b, t⟩ := y
  obtain ⟨rfl, hst⟩ := h
  exact ⟨t, rfl, hst⟩

namespace Tokenizer

/-- The lookahead is the same, and the sources are related. -/
def Related (R : σ → τ → Prop) (t : Tokenizer σ) (u : Tokenizer τ) : Prop :=
  t.lookahead = u.lookahead ∧ R t.source u.source

theorem related_ofSource {R : σ → τ → Prop} {s : σ} {t : τ} (h : R s t) :
    Related R (ofSource s) (ofSource t) :=
  ⟨rfl, h⟩

end Tokenizer

/-- **Related sources answer a request alike**, and are related after it. -/
def CharSource.Simulation [CharSource σ] [CharSource τ] (R : σ → τ → Prop) : Prop :=
  ∀ ⦃s : σ⦄ ⦃t : τ⦄, R s t → Agree R (next s) (next t)

open CharSource (Simulation)
open Tokenizer (Related)

section Characters

variable [CharSource σ] [CharSource τ] {R : σ → τ → Prop}

theorem CharSource.readAll_agree (hR : Simulation R) {s : σ} {t : τ} (h : R s t) :
    Agree R (readAll s) (readAll t) := by
  fun_induction readAll s generalizing t with
  | case1 s s' hs =>
      obtain ⟨t', ht, h'⟩ := (hR h).of_left hs
      rw [readAll_of_none ht]
      exact ⟨rfl, h'⟩
  | case2 s c s' hs cs s'' hrest ih =>
      obtain ⟨t', ht, h'⟩ := (hR h).of_left hs
      obtain ⟨hcs, h''⟩ := ih h'
      rw [hrest] at hcs h''
      rw [readAll_of_some ht]
      exact ⟨congrArg (c :: ·) hcs, h''⟩

theorem Comment.skip_agree (hR : Simulation R) {s : σ} {t : τ} (h : R s t) (k : Comment) :
    Agree R (k.skip s) (k.skip t) := by
  fun_induction Comment.skip k s generalizing t with
  | case1 k s s' hs =>
      obtain ⟨t', ht, h'⟩ := (hR h).of_left hs
      rw [skip_of_none ht]
      exact ⟨rfl, h'⟩
  | case2 k s c s' hs hk =>
      obtain ⟨t', ht, h'⟩ := (hR h).of_left hs
      rw [skip_of_some ht, hk]
      exact hR h'
  | case3 k s c s' hs k' hk ih =>
      obtain ⟨t', ht, h'⟩ := (hR h).of_left hs
      rw [skip_of_some ht, hk]
      exact ih h'

namespace Tokenizer

theorem Related.advance (hR : Simulation R) {t : Tokenizer σ} {u : Tokenizer τ}
    (h : Related R t u) : Related R t.advance u.advance := hR h.2

/-- **Related tokenizers give the same token**, and are related after it. -/
theorem scanFrom_agree (hR : Simulation R) {t : Tokenizer σ} {u : Tokenizer τ}
    (h : Related R t u) (state : Scan) :
    Agree (Related R) (scanFrom state t) (scanFrom state u) := by
  fun_induction scanFrom state t generalizing u with
  | case1 state t ht =>
      rw [scanFrom_of_none (h.1.symm.trans ht)]
      exact ⟨rfl, h⟩
  | case2 state t c ht hs =>
      rw [scanFrom_of_some (h.1.symm.trans ht), hs]
      exact ⟨rfl, h⟩
  | case3 state t c ht state' hs ih =>
      rw [scanFrom_of_some (h.1.symm.trans ht), hs]
      exact ih (h.advance hR)

theorem nextToken_agree (hR : Simulation R) {t : Tokenizer σ} {u : Tokenizer τ}
    (h : Related R t u) : Agree (Related R) t.nextToken u.nextToken :=
  scanFrom_agree hR h .start

theorem next?_agree (hR : Simulation R) {t : Tokenizer σ} {u : Tokenizer τ}
    (h : Related R t u) : Agree (Related R) t.next? u.next? := by
  rcases ht : t.nextToken with ⟨token, t'⟩
  obtain ⟨u', hu, h'⟩ := (nextToken_agree hR h).of_left ht
  by_cases he : token = .endOfInput
  · rw [he] at ht hu
    rw [next?_of_end ht, next?_of_end hu]
    exact ⟨rfl, h'⟩
  · rw [next?_of_token ht he, next?_of_token hu he]
    exact ⟨rfl, h'⟩

theorem collect_agree (hR : Simulation R) {t : Tokenizer σ} {u : Tokenizer τ}
    (h : Related R t u) : Agree (Related R) t.collect u.collect := by
  fun_induction collect t generalizing u with
  | case1 t t' ht =>
      obtain ⟨u', hu, h'⟩ := (next?_agree hR h).of_left ht
      rw [collect_of_none hu]
      exact ⟨rfl, h'⟩
  | case2 t token t' ht tokens t'' hrest ih =>
      obtain ⟨u', hu, h'⟩ := (next?_agree hR h).of_left ht
      obtain ⟨htokens, h''⟩ := ih h'
      rw [hrest] at htokens h''
      rw [collect_of_some hu]
      exact ⟨congrArg (token :: ·) htokens, h''⟩

theorem take_agree (hR : Simulation R) (n : Nat) {t : Tokenizer σ} {u : Tokenizer τ}
    (h : Related R t u) : Agree (Related R) (t.take n) (u.take n) := by
  induction n generalizing t u with
  | zero => exact ⟨rfl, h⟩
  | succ n ih =>
      rcases ht : t.next? with ⟨o, t'⟩
      obtain ⟨u', hu, h'⟩ := (next?_agree hR h).of_left ht
      cases o with
      | none =>
          simp only [take, ht, hu]
          exact ⟨rfl, h'⟩
      | some token =>
          obtain ⟨htokens, h''⟩ := ih h'
          simp only [take, ht, hu]
          exact ⟨congrArg (token :: ·) htokens, h''⟩

end Tokenizer

theorem writeTokensFrom_agree (hR : Simulation R) (config : Config) (count : Nat)
    {t : Tokenizer σ} {u : Tokenizer τ} (h : Related R t u) (sink : Sink) :
    (writeTokensFrom config count t sink).result = (writeTokensFrom config count u sink).result ∧
      (writeTokensFrom config count t sink).sink = (writeTokensFrom config count u sink).sink ∧
      Related R (writeTokensFrom config count t sink).tokenizer
        (writeTokensFrom config count u sink).tokenizer := by
  fun_induction writeTokensFrom config count t sink generalizing u with
  | case1 count t sink hl =>
      rw [writeTokensFrom_of_limit hl]
      exact ⟨rfl, rfl, h⟩
  | case2 count t sink hl t' ht he sink' hw =>
      obtain ⟨u', hu, h'⟩ := (Tokenizer.next?_agree hR h).of_left ht
      rw [writeTokensFrom_of_none (Bool.eq_false_iff.2 hl) hu, if_pos he, hw]
      exact ⟨rfl, rfl, h'⟩
  | case3 count t sink hl t' ht he refusal sink' hw =>
      obtain ⟨u', hu, h'⟩ := (Tokenizer.next?_agree hR h).of_left ht
      rw [writeTokensFrom_of_none (Bool.eq_false_iff.2 hl) hu, if_pos he, hw]
      exact ⟨rfl, rfl, h'⟩
  | case4 count t sink hl t' ht he =>
      obtain ⟨u', hu, h'⟩ := (Tokenizer.next?_agree hR h).of_left ht
      rw [writeTokensFrom_of_none (Bool.eq_false_iff.2 hl) hu, if_neg he]
      exact ⟨rfl, rfl, h'⟩
  | case5 count t sink hl token t' ht sink' hw ih =>
      obtain ⟨u', hu, h'⟩ := (Tokenizer.next?_agree hR h).of_left ht
      rw [writeTokensFrom_of_some (Bool.eq_false_iff.2 hl) hu, hw]
      exact ih h'
  | case6 count t sink hl token t' ht refusal sink' hw =>
      obtain ⟨u', hu, h'⟩ := (Tokenizer.next?_agree hR h).of_left ht
      rw [writeTokensFrom_of_some (Bool.eq_false_iff.2 hl) hu, hw]
      exact ⟨rfl, rfl, h'⟩

end Characters

/-! ### Sessions -/

/-- An outcome without what belongs to the source alone: its failure, and the source itself. -/
def Outcome.visible : Outcome σ → Outcome Unit
  | token t => token t
  | token? t => token? t
  | tokens ts => tokens ts
  | char? c => char? c
  | failure? _ => failure? none
  | done => done
  | written result sink => written result sink
  | source _ => source ()

/-- **Related tokenizers cannot be told apart in one step**, if it does not take the failure of the
source. -/
theorem Step.perform_related [ObservedSource σ] [ObservedSource τ] {R : σ → τ → Prop}
    (hR : Simulation R) {step : Step} (hstep : step ≠ takeFailure) {t : Tokenizer σ}
    {u : Tokenizer τ} (h : Related R t u) :
    (step.perform t).1.visible = (step.perform u).1.visible ∧
      Related R (step.perform t).2 (step.perform u).2 := by
  cases step with
  | nextToken =>
      obtain ⟨htoken, h'⟩ := Tokenizer.nextToken_agree hR h
      exact ⟨congrArg Outcome.token htoken, h'⟩
  | next =>
      obtain ⟨htoken, h'⟩ := Tokenizer.next?_agree hR h
      exact ⟨congrArg Outcome.token? htoken, h'⟩
  | collect =>
      obtain ⟨htokens, h'⟩ := Tokenizer.collect_agree hR h
      exact ⟨congrArg Outcome.tokens htokens, h'⟩
  | take n =>
      obtain ⟨htokens, h'⟩ := Tokenizer.take_agree hR n h
      exact ⟨congrArg Outcome.tokens htokens, h'⟩
  | readChar =>
      obtain ⟨hc, h'⟩ := hR h.2
      exact ⟨congrArg Outcome.char? hc, h.1, h'⟩
  | innerToken =>
      obtain ⟨htoken, h'⟩ := Tokenizer.nextToken_agree hR (Tokenizer.related_ofSource h.2)
      exact ⟨congrArg Outcome.token htoken, h.1, h'.2⟩
  | skipComment k =>
      obtain ⟨hc, h'⟩ := Comment.skip_agree hR h.2 k
      exact ⟨congrArg Outcome.char? hc, h.1, h'⟩
  | takeFailure => exact absurd rfl hstep
  | restart => exact ⟨rfl, Tokenizer.related_ofSource h.2⟩
  | write config sink =>
      obtain ⟨hresult, hsink, h'⟩ := writeTokensFrom_agree hR config 0 h sink
      exact ⟨congr (congrArg Outcome.written hresult) hsink, h'⟩
  | takeSource => exact ⟨rfl, h⟩

end StreamLexer
