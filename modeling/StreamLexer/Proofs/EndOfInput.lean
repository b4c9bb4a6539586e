/-
**The end of the input.**

A source may answer none and have more to offer later.  A tokenizer does not come back for it: the
first none that it reads is its last reading, the token that this completes is its last token, and
from then on it reports the end of the input.  Until then it reads each character once.  To speak of
what is read, the source is made to record its answers, which changes none of them.

Main definitions:

* `StreamLexer.Recorded` — a source with a record of its answers;
* `StreamLexer.Tokenizer.Advances` — **the way of a tokenizer**: lookahead after lookahead is
  accepted;
* `StreamLexer.Tokenizer.EndsDuring`, `StreamLexer.Tokenizer.ReadsOnce` — what holds of a use that
  meets the end, and of a source that nobody else reads;
* `StreamLexer.ScriptedSource.ofStream` — an endless stream of answers, cut at a place.

Main results:

* `StreamLexer.Tokenizer.Advances.answers` — **what is read on the way**;
* `StreamLexer.Step.perform_of_none` — a use at the end of the input changes nothing;
* `StreamLexer.Tokenizer.endsDuring`, `StreamLexer.Tokenizer.readsOnce` — the two halves of it;
* `StreamLexer.endOfInput_terminal` — the end of the input is final;
* `StreamLexer.endOfInput_ofStream` — the end of an endless stream is final, wherever it is cut.
-/

import StreamLexer.Proofs.Calls
import StreamLexer.Proofs.SourceSimulation

set_option relaxedAutoImplicit false
set_option autoImplicit false

namespace StreamLexer

variable {σ : Type}

/-! ### Recorded sources -/

/-- A source with a record of its answers. -/
structure Recorded (σ : Type) where
  source : σ
  /-- The answers so far, in order. -/
  answers : List (Option Char)

namespace Recorded

/-- A source with an empty record. -/
def start (s : σ) : Recorded σ := ⟨s, []⟩

/-- The answers that have come in since `r`. -/
def since (r r' : Recorded σ) : List (Option Char) := r'.answers.drop r.answers.length

theorem since_of_append {r r' : Recorded σ} {more : List (Option Char)}
    (h : r'.answers = r.answers ++ more) : r.since r' = more := by
  rw [since, h, List.drop_left]

variable [CharSource σ]

/-- The next answer of the source goes on record. -/
def next (r : Recorded σ) : Option Char × Recorded σ :=
  let (c, s) := CharSource.next r.source
  (c, ⟨s, r.answers ++ [c]⟩)

theorem next_eq {r : Recorded σ} {c : Option Char} {s : σ}
    (h : CharSource.next r.source = (c, s)) : r.next = (c, ⟨s, r.answers ++ [c]⟩) := by
  rw [next, h]

instance : CharSource (Recorded σ) where
  next := next
  remaining r := CharSource.remaining r.source
  remaining_lt := by
    intro r r' c h
    rcases hn : CharSource.next r.source with ⟨o, s⟩
    rw [next_eq hn] at h
    obtain ⟨rfl, rfl⟩ := Prod.mk.inj h
    exact CharSource.remaining_lt hn

/-- A record stands where so many answers have been given, and never fails. -/
instance : ObservedSource (Recorded σ) where
  position r := r.answers.length
  takeFailure r := (none, r)

/-- **Recording changes no answer.** -/
theorem simulation : CharSource.Simulation fun (r : Recorded σ) (s : σ) => r.source = s := by
  rintro r _ rfl
  rcases hn : CharSource.next r.source with ⟨c, s⟩
  have hr : CharSource.next r = (c, ⟨s, r.answers ++ [c]⟩) := next_eq hn
  rw [hr]
  exact ⟨rfl, rfl⟩

end Recorded

/-! ### The way of a tokenizer -/

namespace Tokenizer

section Advances

variable [CharSource σ]

/-- **The second tokenizer comes from the first** by accepting lookahead after lookahead. -/
inductive Advances : Tokenizer σ → Tokenizer σ → Prop
  | refl (t : Tokenizer σ) : Advances t t
  | head {t t' : Tokenizer σ} {c : Char} : t.lookahead = some c → Advances t.advance t' →
      Advances t t'

theorem Advances.trans {t t' t'' : Tokenizer σ} (h : Advances t t') (h' : Advances t' t'') :
    Advances t t'' := by
  induction h with
  | refl => exact h'
  | head hc _ ih => exact .head hc (ih h')

theorem Advances.eq_of_none {t t' : Tokenizer σ} (h : Advances t t') (hl : t.lookahead = none) :
    t' = t := by
  cases h with
  | refl => rfl
  | head hc => simp [hl] at hc

theorem advances_scanFrom (state : Scan) (t : Tokenizer σ) : Advances t (scanFrom state t).2 := by
  fun_induction scanFrom state t with
  | case1 state t h => exact .refl t
  | case2 state t c h hs => exact .refl t
  | case3 state t c h state' hs ih => exact .head h ih

theorem advances_calls (k : Nat) (t : Tokenizer σ) : Advances t (t.calls k).2 := by
  induction k generalizing t with
  | zero => exact .refl t
  | succ k ih =>
      rcases ht : t.nextToken with ⟨token, t'⟩
      have hfirst : Advances t t.nextToken.2 := advances_scanFrom .start t
      rw [ht] at hfirst
      rw [calls_succ_of_nextToken ht]
      exact hfirst.trans (ih t')

end Advances

variable [CharSource σ] {t t' : Tokenizer (Recorded σ)}

theorem answers_advance (t : Tokenizer (Recorded σ)) :
    t.advance.source.answers = t.source.answers ++ [t.advance.lookahead] := by
  rcases hn : CharSource.next t.source.source with ⟨c, s⟩
  have hr : CharSource.next t.source = (c, ⟨s, t.source.answers ++ [c]⟩) := Recorded.next_eq hn
  rw [advance, hr]

/-- **What is read on the way**: characters that were unread, or, if the way leads to the end of the
input, all of them and then none.  From the end on there is no way and no reading. -/
theorem Advances.answers (h : Advances t t') :
    (t'.lookahead ≠ none ∧ ∃ cs, t.unread.tail = cs ++ t'.unread.tail ∧
        t'.source.answers = t.source.answers ++ cs.map some) ∨
      (t.lookahead ≠ none ∧ t'.lookahead = none ∧
        t'.source.answers = t.source.answers ++ (t.unread.tail.map some ++ [none])) ∨
      (t.lookahead = none ∧ t' = t) := by
  induction h with
  | refl t =>
      by_cases hl : t.lookahead = none
      · exact Or.inr (Or.inr ⟨hl, rfl⟩)
      · exact Or.inl ⟨hl, [], rfl, (List.append_nil _).symm⟩
  | @head t t' c hc h ih =>
      have hne : t.lookahead ≠ none := by simp [hc]
      have htail : t.unread.tail = t.advance.unread := by rw [unread_of_some hc, List.tail_cons]
      have hanswers := answers_advance t
      cases hl : t.advance.lookahead with
      | none =>
          -- no way leads on from the end
          obtain rfl := h.eq_of_none hl
          rw [hl] at hanswers
          refine Or.inr (Or.inl ⟨hne, hl, ?_⟩)
          rw [htail, unread_of_none hl, hanswers, List.map_nil, List.nil_append]
      | some d =>
          have hunread : t.advance.unread = d :: t.advance.unread.tail := by
            rw [unread_of_some hl, List.tail_cons]
          rw [hl] at hanswers
          rcases ih with ⟨hl', cs, hcs, ha⟩ | ⟨_, hl', ha⟩ | ⟨hnone, _⟩
          · refine Or.inl ⟨hl', d :: cs, ?_, ?_⟩
            · rw [htail, hunread, hcs, List.cons_append]
            · rw [ha, hanswers, List.append_assoc, List.map_cons, List.singleton_append]
          · refine Or.inr (Or.inl ⟨hne, hl', ?_⟩)
            rw [ha, hanswers, htail, hunread, List.append_assoc, List.tail_cons, List.map_cons,
              List.singleton_append, List.cons_append]
          · simp [hl] at hnone

/-- The way leads to the end of the input where none is read on it. -/
theorem Advances.mem_since_iff (h : Advances t t') :
    none ∈ t.source.since t'.source ↔ t.lookahead ≠ none ∧ t'.lookahead = none := by
  rcases h.answers with ⟨hl, cs, _, ha⟩ | ⟨hl, hl', ha⟩ | ⟨hl, rfl⟩
  · rw [Recorded.since_of_append ha]
    simp [hl]
  · rw [Recorded.since_of_append ha]
    simp [hl, hl']
  · rw [Recorded.since_of_append (List.append_nil _).symm]
    simp [hl]

end Tokenizer

/-! ### At the end of the input -/

/-- The tokenizer after a session. -/
def Session.after [ObservedSource σ] (steps : List Step) (t : Tokenizer σ) : Tokenizer σ :=
  steps.foldl (fun t step => (step.perform t).2) t

/-- **A use at the end of the input** comes to what one call that reports the end comes to, and
changes nothing. -/
theorem Step.perform_of_none [ObservedSource σ] {step : Step} (hstep : step.usesTokenizer = true)
    {t : Tokenizer σ} (h : t.lookahead = none) :
    step.perform t = (step.outcomeOf [.endOfInput], t) := by
  have hnext : t.nextToken = (.endOfInput, t) := Tokenizer.scanFrom_of_none h
  have hnext? : t.next? = (none, t) := Tokenizer.next?_of_end hnext
  cases step with
  | nextToken => simp only [perform, outcomeOf, hnext, List.headD_cons]
  | next => simp only [perform, outcomeOf, hnext?, beforeEnd_end_cons, beforeEnd_nil, List.head?_nil]
  | collect =>
      simp only [perform, outcomeOf, Tokenizer.collect_of_none hnext?, beforeEnd_end_cons,
        beforeEnd_nil]
  | take n =>
      have htake : t.take n = ([], t) := by
        cases n with
        | zero => rfl
        | succ n => rw [Tokenizer.take, hnext?]
      simp only [perform, outcomeOf, htake, beforeEnd_end_cons, beforeEnd_nil]
  | write config sink =>
      simp only [perform, outcomeOf, writeTokens]
      by_cases hl : config.limitReached 0 = true
      · rw [writeTokensFrom_of_limit hl, writtenFrom, if_pos hl]
      · rw [writeTokensFrom_of_none (Bool.eq_false_iff.2 hl) hnext?, writtenFrom, if_neg hl]
        simp only [if_true]
        by_cases he : config.emitEndOfInput = true
        · rw [if_pos he, if_pos he]
          rcases sink.write (Token.endOfInput.line config.format) with ⟨refusal, sink'⟩
          cases refusal <;> rfl
        · rw [if_neg he, if_neg he]
  | _ => simp [usesTokenizer] at hstep

/-- A step that does not start the tokenizer again leaves it at the end of the input. -/
theorem Step.lookahead_perform_of_none [ObservedSource σ] {step : Step} (hstep : step ≠ restart)
    {t : Tokenizer σ} (h : t.lookahead = none) : (step.perform t).2.lookahead = none := by
  cases hu : step.usesTokenizer with
  | true =>
      rw [perform_of_none hu h]
      exact h
  | false =>
      cases step with
      | restart => exact absurd rfl hstep
      | readChar => exact h
      | innerToken => exact h
      | skipComment k => exact h
      | takeFailure => exact h
      | takeSource => exact h
      | _ => simp [usesTokenizer] at hu

theorem Session.lookahead_after_of_none [ObservedSource σ] {steps : List Step}
    (hsteps : .restart ∉ steps) {t : Tokenizer σ} (h : t.lookahead = none) :
    (after steps t).lookahead = none := by
  induction steps generalizing t with
  | nil => exact h
  | cons step steps ih =>
      rw [List.mem_cons, not_or] at hsteps
      exact ih hsteps.2 (Step.lookahead_perform_of_none (Ne.symm hsteps.1) h)

/-! ### The end is final -/

section Final

variable [CharSource σ]

namespace Tokenizer

/-- The answers that a tokenizer gets in a use of it. -/
def reads (t : Tokenizer (Recorded σ)) (use : Step) : List (Option Char) :=
  t.source.since (use.perform t).2.source

/-- **The end of the input during a use** of a tokenizer. -/
structure EndsDuring (t : Tokenizer (Recorded σ)) (use : Step) : Prop where
  /-- The first none is the last reading. -/
  last_reading : ∃ cs : List Char, t.reads use = cs.map some ++ [none]
  /-- The use comes to so many calls that read no none, one more that reads it, and nothing but the
  end of the input after that. -/
  last_token : ∃ k extra, none ∉ t.source.since (t.calls k).2.source ∧
    use.perform t =
      (use.outcomeOf ((t.calls (k + 1)).1 ++ List.replicate extra .endOfInput), (t.calls (k + 1)).2)
  /-- Whatever else is done, except to start again, every later use finds the end of the input and
  touches neither the tokenizer nor its source. -/
  final : ∀ steps : List Step, .restart ∉ steps → ∀ later : Step, later.usesTokenizer = true →
    later.perform (Session.after steps (use.perform t).2) =
      (later.outcomeOf [.endOfInput], Session.after steps (use.perform t).2)

/-- Where none is read in so many calls, there is a first call that reads it. -/
theorem exists_first_none {k : Nat} {t : Tokenizer (Recorded σ)}
    (h : none ∈ t.source.since (t.calls k).2.source) :
    ∃ j extra, k = j + 1 + extra ∧ none ∉ t.source.since (t.calls j).2.source ∧
      none ∈ t.source.since (t.calls (j + 1)).2.source := by
  induction k with
  | zero =>
      have hno := (advances_calls 0 t).mem_since_iff.1 h
      exact absurd hno.2 hno.1
  | succ k ih =>
      by_cases hk : none ∈ t.source.since (t.calls k).2.source
      · obtain ⟨j, extra, rfl, hj, hj'⟩ := ih hk
        exact ⟨j, extra + 1, rfl, hj, hj'⟩
      · exact ⟨k, 0, rfl, hk, h⟩

theorem endsDuring {t : Tokenizer (Recorded σ)} {use : Step} (huse : use.usesTokenizer = true)
    (h : none ∈ t.reads use) : t.EndsDuring use := by
  obtain ⟨k, hk⟩ := Step.exists_calls huse t
  rw [reads, hk] at h
  have hway : Advances t (t.calls k).2 := advances_calls k t
  obtain ⟨hl, hend⟩ := hway.mem_since_iff.1 h
  constructor
  · rcases hway.answers with ⟨hl', _⟩ | ⟨_, _, ha⟩ | ⟨hl', _⟩
    · exact absurd hend hl'
    · rw [reads, hk]
      exact ⟨t.unread.tail, Recorded.since_of_append ha⟩
    · exact absurd hl' hl
  · -- the calls after the one that reads none report the end and read nothing
    obtain ⟨j, extra, rfl, hj, hj'⟩ := exists_first_none h
    have hend' := ((advances_calls (j + 1) t).mem_since_iff.1 hj').2
    refine ⟨j, extra, hj, ?_⟩
    rw [hk, calls_add, calls_of_none hend']
  · intro steps hsteps later hlater
    rw [hk]
    exact Step.perform_of_none hlater (Session.lookahead_after_of_none hsteps hend)

/-- **A source that only one tokenizer reads**, `text` being what it gives before its first none. -/
structure ReadsOnce (s : σ) (text : String) : Prop where
  /-- There are no more tokens than characters. -/
  tokens_le : (tokenize text).length ≤ text.length
  /-- Calls give the tokens of the text, and then report its end. -/
  tokens : ∀ k, ((ofSource s).calls k).1 = (tokenize text).take k ++
    List.replicate (k - (tokenize text).length) .endOfInput
  /-- Calls give the same tokens when the source is recorded. -/
  tokens_recorded : ∀ k,
    ((ofSource (Recorded.start s)).calls k).1 = ((ofSource s).calls k).1
  /-- What has been read are characters of the text, each once and in order. -/
  answers : ∀ k, ((ofSource (Recorded.start s)).calls k).2.source.answers <+:
    text.toList.map some ++ [none]
  /-- When the end has been reported, all of the text and one none have been read. -/
  answers_end : ∀ k, (tokenize text).length < k →
    ((ofSource (Recorded.start s)).calls k).2.source.answers = text.toList.map some ++ [none]
  /-- Any uses of the tokenizer come to calls. -/
  uses : ∀ steps : List Step, (∀ step ∈ steps, step.usesTokenizer = true) →
    ∃ k, Session.after steps (ofSource (Recorded.start s)) =
      ((ofSource (Recorded.start s)).calls k).2

theorem unread_ofSource (s : σ) : (ofSource s).unread = ' ' :: (CharSource.readAll s).1 := rfl

theorem readAll_start (s : σ) :
    (CharSource.readAll (Recorded.start s)).1 = (CharSource.readAll s).1 :=
  (CharSource.readAll_agree Recorded.simulation (s := Recorded.start s) rfl).1

/-- A fresh tokenizer has the tokens of the text before it. -/
theorem tokens_unread_ofSource {s : σ} {text : String}
    (h : text.toList = (CharSource.readAll s).1) :
    Scan.start.tokens (ofSource s).unread = tokenize text := by
  rw [unread_ofSource, tokenize_eq_tokens, h, Scan.tokens_start_cons]
  rfl

theorem exists_calls_after (steps : List Step)
    (hsteps : ∀ step ∈ steps, step.usesTokenizer = true) (t : Tokenizer (Recorded σ)) :
    ∃ k, Session.after steps t = (t.calls k).2 := by
  induction steps generalizing t with
  | nil => exact ⟨0, rfl⟩
  | cons step steps ih =>
      obtain ⟨m, hm⟩ := Step.exists_calls (hsteps step List.mem_cons_self) t
      obtain ⟨n, hn⟩ := ih (fun s hs => hsteps s (List.mem_cons_of_mem step hs)) (t.calls m).2
      refine ⟨m + n, ?_⟩
      rw [calls_add, ← hn, Session.after, List.foldl_cons, hm]
      rfl

theorem readsOnce {s : σ} {text : String} (h : text.toList = (CharSource.readAll s).1) :
    ReadsOnce s text := by
  have hstart : text.toList = (CharSource.readAll (Recorded.start s)).1 :=
    h.trans (readAll_start s).symm
  have hunread : (ofSource (Recorded.start s)).unread.tail = text.toList := hstart.symm
  have hway (k : Nat) := (advances_calls k (ofSource (Recorded.start s))).answers
  constructor
  · rw [tokenize_eq_tokens]
    exact Scan.length_tokens_le .start text.toList
  · intro k
    rw [calls_fst, tokens_unread_ofSource h]
  · intro k
    rw [calls_fst, calls_fst, tokens_unread_ofSource h, tokens_unread_ofSource hstart]
  · intro k
    rcases hway k with ⟨_, cs, hcs, ha⟩ | ⟨_, _, ha⟩ | ⟨hl, _⟩
    · rw [ha, ← hunread, hcs]
      simp [Recorded.start, ofSource]
    · rw [ha, hunread]
      exact List.prefix_rfl
    · exact absurd hl (Option.some_ne_none ' ')
  · intro k hk
    rw [← tokens_unread_ofSource hstart] at hk
    have hend := lookahead_calls hk
    rcases hway k with ⟨hl, _⟩ | ⟨_, _, ha⟩ | ⟨hl, _⟩
    · exact absurd hend hl
    · rw [ha, hunread]
      rfl
    · exact absurd hl (Option.some_ne_none ' ')
  · intro steps hsteps
    exact exists_calls_after steps hsteps _

end Tokenizer

end Final

/-- **The end of the input is final.**  For every source, whatever it would still offer: a use of a
tokenizer that reads none reads nothing after it, returns no token but the one that this completes,
and every later use finds the end of the input without touching the source.  If nobody else reads
the source, its text before the first none is read once, and one none. -/
theorem endOfInput_terminal (σ : Type) [CharSource σ] :
    (∀ (t : Tokenizer (Recorded σ)) (use : Step), use.usesTokenizer = true →
        none ∈ t.reads use → t.EndsDuring use) ∧
      ∀ s : σ, Tokenizer.ReadsOnce s (.ofList (CharSource.readAll s).1) := by
  constructor
  · intro t use huse h
    exact Tokenizer.endsDuring huse h
  · intro s
    exact Tokenizer.readsOnce String.toList_ofList

/-- A source that goes on after none: the word is complete when none comes, and that is the end. -/
theorem endOfInput_terminal_resuming :
    none ∈ (Tokenizer.ofSource (Recorded.start
        (⟨[some 'a', none, some 'b'], 0⟩ : ScriptedSource))).reads .nextToken ∧
      (Tokenizer.ofSource (Recorded.start
        (⟨[some 'a', none, some 'b'], 0⟩ : ScriptedSource))).EndsDuring .nextToken := by
  have hread : none ∈ (Tokenizer.ofSource (Recorded.start
      (⟨[some 'a', none, some 'b'], 0⟩ : ScriptedSource))).reads .nextToken := by
    rw [Tokenizer.reads, Step.perform, Tokenizer.nextToken,
      Tokenizer.scanFrom_of_some (c := ' ') rfl]
    show none ∈ Recorded.since _ (Tokenizer.scanFrom .start _).2.source
    rw [Tokenizer.scanFrom_of_some (c := 'a') rfl]
    show none ∈ Recorded.since _ (Tokenizer.scanFrom (.word ['a']) _).2.source
    rw [Tokenizer.scanFrom_of_none rfl]
    decide
  exact ⟨hread, (endOfInput_terminal ScriptedSource).1 _ _ rfl hread⟩

/-! ### A stream of answers, cut at any place -/

namespace ScriptedSource

/-- The answers of an endless stream that is cut at the place `n`. -/
def cut (stream : Nat → Option Char) (n i : Nat) : Option Char := if i < n then stream i else none

/-- **An endless stream of answers**, cut at the place `n` and read from the place `p` on. -/
def ofStream (stream : Nat → Option Char) (n p : Nat) : ScriptedSource :=
  ⟨(List.range' p (n - p)).map stream, p⟩

variable {stream : Nat → Option Char} {n p : Nat}

theorem next_ofStream :
    CharSource.next (ofStream stream n p) = (cut stream n p, ofStream stream n (p + 1)) := by
  by_cases h : p < n
  · have hlen : n - p = n - (p + 1) + 1 := by omega
    rw [ofStream, hlen, List.range'_succ, cut, if_pos h]
    rfl
  · have hlen : n - p = 0 := by omega
    have hlen' : n - (p + 1) = 0 := by omega
    rw [ofStream, ofStream, hlen, hlen', cut, if_neg h]
    rfl

/-- The characters of a text stand in a stream of answers from the place `p` on, and then none. -/
def TextFrom (answers : Nat → Option Char) (p : Nat) (cs : List Char) : Prop :=
  ∀ i ≤ cs.length, answers (p + i) = cs[i]?

theorem TextFrom.length_le {answers : Nat → Option Char} {cs cs' : List Char}
    (h : TextFrom answers p cs) (h' : TextFrom answers p cs') : cs.length ≤ cs'.length := by
  refine Nat.le_of_not_lt ?_
  intro hlt
  have hnone := (h' cs'.length (Nat.le_refl _)).symm.trans (h cs'.length (Nat.le_of_lt hlt))
  simp [hlt] at hnone

/-- In a stream of answers there is one text only from a place on. -/
theorem TextFrom.unique {answers : Nat → Option Char} {cs cs' : List Char}
    (h : TextFrom answers p cs) (h' : TextFrom answers p cs') : cs = cs' := by
  have hlength : cs.length = cs'.length := Nat.le_antisymm (h.length_le h') (h'.length_le h)
  refine List.ext_getElem? ?_
  intro i
  rcases Nat.le_total i cs.length with hi | hi
  · rw [← h i hi, h' i (hlength ▸ hi)]
  · rw [List.getElem?_eq_none hi, List.getElem?_eq_none (hlength ▸ hi)]

/-- A cut after the first none takes nothing from the text. -/
theorem TextFrom.cut {cs : List Char} (h : TextFrom stream p cs) (hn : p + cs.length < n) :
    TextFrom (ScriptedSource.cut stream n) p cs := by
  intro i hi
  rw [ScriptedSource.cut, if_pos (by omega)]
  exact h i hi

theorem TextFrom.nil {answers : Nat → Option Char} (h : answers p = none) :
    TextFrom answers p [] := by
  intro i hi
  obtain rfl : i = 0 := Nat.le_zero.1 hi
  exact h

theorem TextFrom.cons {answers : Nat → Option Char} {c : Char} {cs : List Char}
    (h : answers p = some c) (hrest : TextFrom answers (p + 1) cs) :
    TextFrom answers p (c :: cs) := by
  intro i hi
  cases i with
  | zero => exact h
  | succ i =>
      have hstep := hrest i (Nat.le_of_succ_le_succ hi)
      rwa [Nat.add_right_comm, Nat.add_assoc] at hstep

/-- A stream gives its characters up to the first none, and up to where it is cut. -/
theorem textFrom_readAll :
    TextFrom (cut stream n) p (CharSource.readAll (ofStream stream n p)).1 := by
  have hend : ∀ {p}, cut stream n p = none →
      TextFrom (cut stream n) p (CharSource.readAll (ofStream stream n p)).1 := by
    intro p hc
    have hnext : CharSource.next (ofStream stream n p) = (none, ofStream stream n (p + 1)) := by
      rw [next_ofStream, hc]
    rw [CharSource.readAll_of_none hnext]
    exact .nil hc
  induction hk : n - p generalizing p with
  | zero => exact hend (if_neg (by omega))
  | succ k ih =>
      cases hc : cut stream n p with
      | none => exact hend hc
      | some c =>
          have hnext : CharSource.next (ofStream stream n p) =
              (some c, ofStream stream n (p + 1)) := by
            rw [next_ofStream, hc]
          rw [CharSource.readAll_of_some hnext]
          exact .cons hc (ih (by omega))

end ScriptedSource

open ScriptedSource

namespace Tokenizer

variable {stream : Nat → Option Char} {n p : Nat} {t t' : Tokenizer (Recorded ScriptedSource)}

/-- On its way a tokenizer reads a stream place by place. -/
theorem Advances.ofStream (h : Advances t t') (hp : t.source.source = .ofStream stream n p) :
    ∃ k, t'.source.source = .ofStream stream n (p + k) ∧
      t'.source.answers = t.source.answers ++ (List.range' p k).map (cut stream n) := by
  induction h generalizing p with
  | refl t => exact ⟨0, hp, (List.append_nil _).symm⟩
  | @head t t' c _ _ ih =>
      have hn : CharSource.next t.source.source =
          (cut stream n p, .ofStream stream n (p + 1)) := by
        rw [hp, next_ofStream]
      have hr : CharSource.next t.source = (cut stream n p,
          ⟨.ofStream stream n (p + 1), t.source.answers ++ [cut stream n p]⟩) :=
        Recorded.next_eq hn
      have hsource : t.advance.source =
          ⟨.ofStream stream n (p + 1), t.source.answers ++ [cut stream n p]⟩ := by
        rw [advance, hr]
      obtain ⟨k, hk, ha⟩ := ih (congrArg Recorded.source hsource)
      refine ⟨k + 1, ?_, ?_⟩
      · rw [hk, Nat.add_right_comm, Nat.add_assoc]
      · rw [ha, hsource, List.append_assoc, List.range'_succ, List.map_cons, List.singleton_append]

/-- **A use that meets the end** has read the characters up to the first none and that none, and
left all that comes after it. -/
theorem reads_ofStream (hp : t.source.source = .ofStream stream n p) {use : Step}
    (huse : use.usesTokenizer = true) (h : none ∈ t.reads use) :
    ∃ cs, TextFrom (cut stream n) p cs ∧ t.reads use = cs.map some ++ [none] ∧
      (use.perform t).2.source.source = .ofStream stream n (p + cs.length + 1) := by
  obtain ⟨cs, hcs⟩ := (endsDuring huse h).last_reading
  obtain ⟨j, hj⟩ := Step.exists_calls huse t
  obtain ⟨k, hk, ha⟩ := (advances_calls j t).ofStream hp
  have hreads : t.reads use = (List.range' p k).map (cut stream n) := by
    rw [reads, hj]
    exact Recorded.since_of_append ha
  rw [hcs] at hreads
  obtain rfl : cs.length + 1 = k := by simpa using congrArg List.length hreads
  refine ⟨cs, ?_, hcs, ?_⟩
  · intro i hi
    have hget := congrArg (fun answers => answers[i]?) hreads
    rcases Nat.lt_or_eq_of_le hi with hlt | rfl
    · simpa [hlt, Nat.lt_succ_of_lt hlt] using hget.symm
    · simpa using hget.symm
  · rw [hj]
    exact hk

end Tokenizer

/-- **The end of an endless stream of answers is final**, wherever the stream is cut.  A use that
meets the end leaves whatever the stream has after its first none.  Nobody else reading it, the
characters before that none are read once, and neither they nor the tokens depend on the cut if it
comes later. -/
theorem endOfInput_ofStream (stream : Nat → Option Char) (n : Nat) :
    (∀ (p : Nat) (t : Tokenizer (Recorded ScriptedSource)) (use : Step),
        t.source.source = .ofStream stream n p → use.usesTokenizer = true → none ∈ t.reads use →
        t.EndsDuring use ∧ ∃ cs, TextFrom (cut stream n) p cs ∧
          t.reads use = cs.map some ++ [none] ∧
          (use.perform t).2.source.source = .ofStream stream n (p + cs.length + 1)) ∧
      (∃ cs, TextFrom (cut stream n) 0 cs ∧
        Tokenizer.ReadsOnce (ScriptedSource.ofStream stream n 0) (.ofList cs)) ∧
      ∀ cs, TextFrom stream 0 cs → cs.length < n →
        Tokenizer.ReadsOnce (ScriptedSource.ofStream stream n 0) (.ofList cs) := by
  have honce : Tokenizer.ReadsOnce (ScriptedSource.ofStream stream n 0)
      (.ofList (CharSource.readAll (ScriptedSource.ofStream stream n 0)).1) :=
    Tokenizer.readsOnce String.toList_ofList
  refine ⟨?_, ⟨_, textFrom_readAll, honce⟩, ?_⟩
  · intro p t use hp huse h
    exact ⟨Tokenizer.endsDuring huse h, Tokenizer.reads_ofStream hp huse h⟩
  · intro cs hcs hn
    have hcut : TextFrom (cut stream n) 0 cs := hcs.cut (by omega)
    rw [hcut.unique textFrom_readAll]
    exact honce

end StreamLexer
