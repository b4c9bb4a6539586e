/-
**Writing that is resumed.**

Whoever stops at a limit has read the tokens that were written and nothing beyond them, so writing
may go on later as if it had not stopped: a limit reached and another one after it come to their
sum.  Only if the end of the input is met before the limit does a second run find it once more, and
write its line again if that is asked for.

Main definitions:

* `StreamLexer.Config.withLimit`, `StreamLexer.raisedLimit` — a configuration with another limit,
  and the sum of two limits;
* `StreamLexer.Written.addCount` — what writing came to, after tokens that were written before.

Main results:

* `StreamLexer.writeTokensFrom_raised_add` — **at a limit that is reached only what is left of the
  sum counts**;
* `StreamLexer.writeTokensFrom_raised` — a run up to the sum of two limits, over any sink;
* `StreamLexer.writeTokens_resume` — **two runs come to one**.
-/

import StreamLexer.Proofs.Writing

set_option relaxedAutoImplicit false
set_option autoImplicit false

namespace StreamLexer

/-! ### Limits -/

/-- The configuration with another limit. -/
def Config.withLimit (config : Config) (limit : Option UInt64) : Config :=
  { config with maxTokens := limit }

/-- The limit `k` and `m` more; if there is no bound on what comes after, there is none at all. -/
def raisedLimit (k : UInt64) (m : Option UInt64) : Option UInt64 := m.map (k + ·)

/-- Two limits whose sum is a limit. -/
def LimitsFit (k : UInt64) (m : Option UInt64) : Prop :=
  ∀ limit, m = some limit → k.toNat + limit.toNat < UInt64.size

namespace Config

variable {config : Config} {k : UInt64} {m : Option UInt64} {count : Nat}

/-- Only a limit of zero is reached before the first token. -/
theorem limitReached_withLimit_zero (h : m ≠ some 0) :
    (config.withLimit m).limitReached 0 = false := by
  cases m with
  | none => rfl
  | some limit =>
      refine decide_eq_false ?_
      intro hle
      have hzero : limit.toNat = 0 := Nat.le_zero.1 hle
      exact h (congrArg some (UInt64.toNat_inj.1 hzero))

theorem toNat_add_of_limitsFit {limit : UInt64} (h : LimitsFit k (some limit)) :
    (k + limit).toNat = k.toNat + limit.toNat := by
  rw [UInt64.toNat_add, Nat.mod_eq_of_lt (h limit rfl)]

/-- Before the first limit the sum is not reached. -/
theorem limitReached_raised_of_lt (config : Config) (h : LimitsFit k m) (hlt : count < k.toNat) :
    (config.withLimit (raisedLimit k m)).limitReached count = false := by
  cases m with
  | none => rfl
  | some limit =>
      refine decide_eq_false ?_
      rw [toNat_add_of_limitsFit h]
      omega

/-- From the first limit on, the sum is reached when the second limit is. -/
theorem limitReached_raised_add (config : Config) (h : LimitsFit k m) (count : Nat) :
    (config.withLimit (raisedLimit k m)).limitReached (k.toNat + count) =
      (config.withLimit m).limitReached count := by
  cases m with
  | none => rfl
  | some limit =>
      refine decide_eq_decide.2 ?_
      rw [toNat_add_of_limitsFit h]
      omega

end Config

/-! ### One step of writing -/

/-- What writing comes to when it ends after `count` tokens, with a refusal or without. -/
def endResult (refusal : Option Refusal) (count : Nat) : Except Refusal Nat :=
  match refusal with
  | none => .ok count
  | some refusal => .error refusal

section Run

variable {σ : Type} [CharSource σ]

open Tokenizer

/-- **One step of writing** below the limit, whatever the limit is. -/
inductive WriteStep (config : Config) (t : Tokenizer σ) (sink : Sink) : Prop
  /-- Writing ends here; without a refusal the end of the input has been met. -/
  | ends (refusal : Option Refusal) (t' : Tokenizer σ) (sink' : Sink) :
      (refusal = none → t'.lookahead = none) →
      (∀ limit count, (config.withLimit limit).limitReached count = false →
        writeTokensFrom (config.withLimit limit) count t sink =
          ⟨endResult refusal count, t', sink'⟩) → WriteStep config t sink
  /-- One token is written, and writing goes on. -/
  | goesOn (t' : Tokenizer σ) (sink' : Sink) : t'.pending < t.pending →
      (∀ limit count, (config.withLimit limit).limitReached count = false →
        writeTokensFrom (config.withLimit limit) count t sink =
          writeTokensFrom (config.withLimit limit) (count + 1) t' sink') → WriteStep config t sink

/-- A tokenizer without a next token is at the end of the input. -/
theorem lookahead_of_next?_none {t t' : Tokenizer σ} (h : t.next? = (none, t')) :
    t'.lookahead = none := by
  have hnext := nextToken_of_next?_none h
  have htokens : Scan.start.tokens t.unread = [] := by
    rw [← collect_fst, collect_of_none h]
  obtain ⟨u, hu, hl⟩ := nextToken_of_tokens_nil htokens
  obtain ⟨_, rfl⟩ := Prod.mk.inj (hnext.symm.trans hu)
  exact hl

theorem writeStep (config : Config) (t : Tokenizer σ) (sink : Sink) : WriteStep config t sink := by
  rcases ht : t.next? with ⟨o, t'⟩
  cases o with
  | none =>
      have hl := lookahead_of_next?_none ht
      cases he : config.emitEndOfInput with
      | false =>
          refine .ends none t' sink (fun _ => hl) ?_
          intro limit count hlimit
          rw [writeTokensFrom_of_none hlimit ht]
          simp [Config.withLimit, he, endResult]
      | true =>
          rcases hw : sink.write (Token.endOfInput.line config.format) with ⟨refusal, sink'⟩
          refine .ends refusal t' sink' (fun _ => hl) ?_
          intro limit count hlimit
          rw [writeTokensFrom_of_none hlimit ht]
          cases refusal <;> simp [Config.withLimit, he, hw, endResult]
  | some token =>
      rcases hw : sink.write (token.line config.format) with ⟨refusal, sink'⟩
      cases refusal with
      | some refusal =>
          refine .ends (some refusal) t' sink' nofun ?_
          intro limit count hlimit
          rw [writeTokensFrom_of_some hlimit ht]
          simp [Config.withLimit, hw, endResult]
      | none =>
          refine .goesOn t' sink' (pending_next?_lt ht) ?_
          intro limit count hlimit
          rw [writeTokensFrom_of_some hlimit ht]
          simp [Config.withLimit, hw]

/-! ### Runs up to a sum of limits -/

/-- What writing came to, when `n` tokens had been written before. -/
def Written.addCount (n : Nat) (w : Written σ) : Written σ :=
  { w with result := w.result.map (n + ·) }

variable {k : UInt64} {m : Option UInt64}

/-- **Where a limit has been reached, only what is left of the sum counts.** -/
theorem writeTokensFrom_raised_add (h : LimitsFit k m) (config : Config) (count : Nat)
    (t : Tokenizer σ) (sink : Sink) :
    writeTokensFrom (config.withLimit (raisedLimit k m)) (k.toNat + count) t sink =
      (writeTokensFrom (config.withLimit m) count t sink).addCount k.toNat := by
  have hlimit := Config.limitReached_raised_add config h count
  -- on the characters that are still to be scanned
  induction hp : t.pending using Nat.strongRecOn generalizing count t sink with
  | ind p ih =>
      cases hl : (config.withLimit m).limitReached count with
      | true =>
          rw [writeTokensFrom_of_limit hl, writeTokensFrom_of_limit (hlimit.trans hl)]
          rfl
      | false =>
          cases writeStep config t sink with
          | ends refusal t' sink' _ hends =>
              rw [hends _ _ hl, hends _ _ (hlimit.trans hl)]
              cases refusal <;> rfl
          | goesOn t' sink' hlt hon =>
              rw [hon _ _ hl, hon _ _ (hlimit.trans hl)]
              exact ih t'.pending (hp ▸ hlt) (count + 1) t' sink'
                (Config.limitReached_raised_add config h (count + 1)) rfl

/-- **A run up to the sum of two limits** goes on where a run up to the first has reached it, and is
that run where it has not: there a line was refused, or the end of the input was met. -/
theorem writeTokensFrom_raised (h : LimitsFit k m) (config : Config) {count : Nat}
    (hcount : count ≤ k.toNat) (t : Tokenizer σ) (sink : Sink) :
    ∃ w, writeTokensFrom (config.withLimit (some k)) count t sink = w ∧
      ((w.result = .ok k.toNat ∧
          writeTokensFrom (config.withLimit (raisedLimit k m)) count t sink =
            (writeTokens (config.withLimit m) w.tokenizer w.sink).addCount k.toNat) ∨
        (writeTokensFrom (config.withLimit (raisedLimit k m)) count t sink = w ∧
          ∀ n, w.result = .ok n → n < k.toNat ∧ w.tokenizer.lookahead = none)) := by
  -- on the characters that are still to be scanned
  induction hp : t.pending using Nat.strongRecOn generalizing count t sink with
  | ind p ih =>
      rcases Nat.lt_or_eq_of_le hcount with hlt | rfl
      · have hl : (config.withLimit (some k)).limitReached count = false :=
          decide_eq_false (Nat.not_le.2 hlt)
        have hraised := Config.limitReached_raised_of_lt config h hlt
        cases writeStep config t sink with
        | ends refusal t' sink' hnone hends =>
            refine ⟨_, hends _ _ hl, .inr ⟨hends _ _ hraised, ?_⟩⟩
            intro n hn
            cases refusal with
            | none =>
                obtain rfl : count = n := Except.ok.inj hn
                exact ⟨hlt, hnone rfl⟩
            | some refusal => cases hn
        | goesOn t' sink' hpending hon =>
            rw [hon _ _ hl, hon _ _ hraised]
            exact ih t'.pending (hp ▸ hpending) hlt t' sink' rfl
      · have hl : (config.withLimit (some k)).limitReached k.toNat = true :=
          decide_eq_true (Nat.le_refl _)
        refine ⟨_, writeTokensFrom_of_limit hl, .inl ⟨rfl, ?_⟩⟩
        exact writeTokensFrom_raised_add h config 0 t sink

/-! ### Resuming -/

/-- At the end of the input a further run finds it again, and writes its line if there is room for a
token and that is asked for. -/
theorem writeTokens_of_end (config : Config) {t : Tokenizer σ} (h : t.lookahead = none)
    {sink : Sink} (hsink : sink.capacity = none) :
    writeTokens config t sink = ⟨.ok 0, t,
      sink.append (if config.limitReached 0 = false ∧ config.emitEndOfInput = true then
        Token.endOfInput.line config.format else [])⟩ := by
  have hnext : t.next? = (none, t) := next?_of_end (scanFrom_of_none h)
  rw [writeTokens]
  cases hl : config.limitReached 0 with
  | true =>
      rw [writeTokensFrom_of_limit hl]
      simp
  | false =>
      rw [writeTokensFrom_of_none hl hnext]
      cases config.emitEndOfInput with
      | false => simp
      | true => simp [Sink.write_of_capacity_none hsink]

/-- A sink without a bound refuses nothing. -/
theorem exists_writeTokens_eq (config : Config) (t : Tokenizer σ) {sink : Sink}
    (hsink : sink.capacity = none) :
    ∃ n u bytes, writeTokens config t sink = ⟨.ok n, u, sink.append bytes⟩ :=
  ⟨_, _, _, writeTokens_of_taken (Sink.write_of_capacity_none hsink _)⟩

/-- **Writing up to a limit may be resumed.**  If the limit was reached, or if the end of the input
gets no line, the two runs leave what one run up to the sum of the limits leaves: the bytes, the
tokenizer and the sum of the counts.  Otherwise the second run finds the end of the input again: if
it has room for a token it writes one more line for it, the end as the form shows it and a line
feed, and nothing else. -/
theorem writeTokens_resume (config : Config) (t : Tokenizer σ) (sink : Sink) (k : UInt64)
    (m : Option UInt64) (hsink : sink.capacity = none)
    (hfit : ∀ limit, m = some limit → k.toNat + limit.toNat < UInt64.size) :
    (∀ token : Token, token.line .text = encodeUtf8 token.text.toList ++ [0x0A] ∧
        token.line .json = encodeUtf8 token.json.toList ++ [0x0A]) ∧
    ∃ (n n' : Nat) (u u' : Tokenizer σ) (s s' : Sink),
      writeTokens (config.withLimit (some k)) t sink = ⟨.ok n, u, s⟩ ∧ n ≤ k.toNat ∧
      writeTokens (config.withLimit m) u s = ⟨.ok n', u', s'⟩ ∧
      (n = k.toNat ∨ config.emitEndOfInput = false →
        writeTokens (config.withLimit (raisedLimit k m)) t sink = ⟨.ok (n + n'), u', s'⟩) ∧
      (n < k.toNat → config.emitEndOfInput = true → m ≠ some 0 →
        writeTokens (config.withLimit (raisedLimit k m)) t sink = ⟨.ok n, u, s⟩ ∧
        n' = 0 ∧ u' = u ∧ s' = s.append (Token.endOfInput.line config.format)) := by
  refine ⟨fun token => ⟨token.line_text, token.line_json⟩, ?_⟩
  obtain ⟨n, u, bytes, hfirst⟩ := exists_writeTokens_eq (config.withLimit (some k)) t hsink
  have hsink' : (sink.append bytes).capacity = none := hsink
  obtain ⟨n', u', bytes', hsecond⟩ := exists_writeTokens_eq (config.withLimit m) u hsink'
  obtain ⟨w, hw, hcases⟩ := writeTokensFrom_raised hfit config (Nat.zero_le _) t sink
  obtain rfl : (⟨.ok n, u, sink.append bytes⟩ : Written σ) = w := hfirst.symm.trans hw
  rcases hcases with ⟨hreached, hwhole⟩ | ⟨hwhole, hended⟩
  · obtain rfl : n = k.toNat := Except.ok.inj hreached
    rw [hsecond] at hwhole
    refine ⟨_, n', u, u', _, _, hfirst, Nat.le_refl _, hsecond, ?_, ?_⟩
    · intro _
      exact hwhole
    · intro hlt
      exact absurd hlt (Nat.lt_irrefl _)
  · obtain ⟨hlt, hl⟩ := hended n rfl
    have hend := writeTokens_of_end (config.withLimit m) hl hsink'
    refine ⟨n, 0, u, u, _, _, hfirst, Nat.le_of_lt hlt, hend, ?_, ?_⟩
    · rintro (rfl | hemit)
      · exact absurd hlt (Nat.lt_irrefl _)
      · have hquiet : (config.withLimit m).emitEndOfInput = false := hemit
        have hempty : sink.append bytes = (sink.append bytes).append [] := (Sink.append_nil _).symm
        rw [hquiet, if_neg (fun h => Bool.false_ne_true h.2), ← hempty]
        exact hwhole
    · intro _ hemit hm
      have hloud : (config.withLimit m).emitEndOfInput = true := hemit
      have hroom : (config.withLimit m).limitReached 0 = false :=
        Config.limitReached_withLimit_zero hm
      refine ⟨hwhole, rfl, rfl, ?_⟩
      rw [if_pos ⟨hroom, hloud⟩]
      rfl

/-- A limit that is reached with the last token: the second run writes the line of the end, once. -/
theorem writeTokens_resume_at_last_token :
    ({} : Sink).capacity = none ∧ (∀ limit : UInt64, some 3 = some limit →
        (2 : UInt64).toNat + limit.toNat < UInt64.size) ∧
      ∃ (n n' : Nat) (u u' : Tokenizer TextCursor) (s s' : Sink),
        writeTokens (({} : Config).withLimit (some 2)) (Tokenizer.ofString "a b") {} =
          ⟨.ok n, u, s⟩ ∧
        writeTokens (({} : Config).withLimit (some 3)) u s = ⟨.ok n', u', s'⟩ ∧
        n = (2 : UInt64).toNat ∧
        writeTokens (({} : Config).withLimit (raisedLimit 2 (some 3))) (Tokenizer.ofString "a b")
          {} = ⟨.ok (n + n'), u', s'⟩ := by
  have hfit : ∀ limit : UInt64, some 3 = some limit →
      (2 : UInt64).toNat + limit.toNat < UInt64.size := by
    intro limit hlimit
    obtain rfl : 3 = limit := Option.some.inj hlimit
    decide
  obtain ⟨_, n, n', u, u', s, s', hfirst, hn, hsecond, hsum, _⟩ :=
    writeTokens_resume {} (Tokenizer.ofString "a b") {} 2 (some 3) rfl hfit
  have hcount : (writeTokens (({} : Config).withLimit (some 2)) (Tokenizer.ofString "a b")
      {}).result.toOption = some 2 := by
    decide +kernel
  rw [hfirst] at hcount
  obtain rfl : n = 2 := Option.some.inj hcount
  exact ⟨rfl, hfit, _, _, _, _, _, _, hfirst, hsecond, rfl, hsum (.inl rfl)⟩

end Run

end StreamLexer
