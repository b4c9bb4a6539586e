/-
**Writing tokens is writing lines.**

What is written of a stream of tokens is determined before a byte is written: the lines of the
tokens that the limit allows, and one for the end of the input if the limit leaves room to notice
it.  Writing hands these lines to the sink, one after another, and has asked for the token of a line
when it hands the line over; so a sink that turns a line away leaves the tokenizer right after the
token of that line.

Main definitions:

* `StreamLexer.Config.allowed`, `StreamLexer.Config.reachesEnd` — the tokens that the limit allows,
  and whether the end of the input is noticed;
* `StreamLexer.Config.lines`, `StreamLexer.Config.callsMade` — **the lines that are written**, and
  the calls for the next token that are made for them.

Main results:

* `StreamLexer.writeTokensFrom_eq` — writing tokens is writing their lines;
* `StreamLexer.writeTokens_unlimited` — **what is written to a sink without a bound**;
* `StreamLexer.writeTokens_limited` — **what is written to a sink with one**.
-/

import StreamLexer.Proofs.Calls
import StreamLexer.Proofs.SinkParts

set_option relaxedAutoImplicit false
set_option autoImplicit false

namespace StreamLexer

/-! ### The lines that are written -/

namespace Config

/-- The tokens that the limit allows after `count` others. -/
def allowed (config : Config) (count : Nat) (tokens : List Token) : List Token :=
  match config.maxTokens with
  | none => tokens
  | some limit => tokens.take (limit.toNat - count)

/-- Whether the end of the input is noticed: it is where the limit allows another token. -/
def reachesEnd (config : Config) (count : Nat) (tokens : List Token) : Bool :=
  !config.limitReached (count + tokens.length)

/-- **The lines that are written** when `tokens` are still to come after `count` others. -/
def lines (config : Config) (count : Nat) (tokens : List Token) : List (List UInt8) :=
  (config.allowed count tokens).map (Token.line config.format) ++
    if config.reachesEnd count tokens && config.emitEndOfInput then
      [Token.endOfInput.line config.format]
    else []

/-- The calls for the next token that are made. -/
def callsMade (config : Config) (count : Nat) (tokens : List Token) : Nat :=
  (config.allowed count tokens).length + if config.reachesEnd count tokens then 1 else 0

variable {config : Config} {count : Nat}

theorem limitReached_iff :
    config.limitReached count = true ↔
      ∃ limit, config.maxTokens = some limit ∧ limit.toNat ≤ count := by
  cases h : config.maxTokens <;> simp [limitReached, h]

/-- Once reached, the limit stays reached. -/
theorem limitReached_add (h : config.limitReached count = true) (n : Nat) :
    config.limitReached (count + n) = true := by
  obtain ⟨limit, hlimit, hle⟩ := limitReached_iff.1 h
  exact limitReached_iff.2 ⟨limit, hlimit, Nat.le_add_right_of_le hle⟩

/-- At the limit nothing is written, and no call is made. -/
theorem of_limitReached (h : config.limitReached count = true) (tokens : List Token) :
    config.allowed count tokens = [] ∧ config.lines count tokens = [] ∧
      config.callsMade count tokens = 0 := by
  have hallowed : config.allowed count tokens = [] := by
    obtain ⟨limit, hlimit, hle⟩ := limitReached_iff.1 h
    simp [allowed, hlimit, Nat.sub_eq_zero_of_le hle]
  have hend : config.reachesEnd count tokens = false := by
    simp [reachesEnd, limitReached_add h]
  simp [lines, callsMade, hallowed, hend]

@[simp] theorem allowed_nil : config.allowed count [] = [] := by
  cases h : config.maxTokens <;> simp [allowed, h]

/-- Below the limit the end of the input is noticed, by one call. -/
theorem lines_nil (h : config.limitReached count = false) :
    config.lines count [] =
      if config.emitEndOfInput then [Token.endOfInput.line config.format] else [] := by
  simp [lines, reachesEnd, h]

theorem callsMade_nil (h : config.limitReached count = false) : config.callsMade count [] = 1 := by
  simp [callsMade, reachesEnd, h]

/-- Below the limit a token is written, by one call. -/
theorem allowed_cons (h : config.limitReached count = false) (token : Token)
    (tokens : List Token) :
    config.allowed count (token :: tokens) = token :: config.allowed (count + 1) tokens := by
  cases hlimit : config.maxTokens with
  | none => simp [allowed, hlimit]
  | some limit =>
      have hlt : count < limit.toNat := by simpa [limitReached, hlimit] using h
      have hsub : limit.toNat - count = (limit.toNat - (count + 1)) + 1 := by omega
      simp only [allowed, hlimit]
      rw [hsub, List.take_succ_cons]

theorem reachesEnd_cons (token : Token) (tokens : List Token) :
    config.reachesEnd count (token :: tokens) = config.reachesEnd (count + 1) tokens := by
  rw [reachesEnd, reachesEnd, List.length_cons, Nat.add_right_comm, Nat.add_assoc]

theorem lines_cons (h : config.limitReached count = false) (token : Token)
    (tokens : List Token) :
    config.lines count (token :: tokens) =
      token.line config.format :: config.lines (count + 1) tokens := by
  rw [lines, lines, allowed_cons h, reachesEnd_cons, List.map_cons, List.cons_append]

theorem callsMade_cons (h : config.limitReached count = false) (token : Token)
    (tokens : List Token) :
    config.callsMade count (token :: tokens) = config.callsMade (count + 1) tokens + 1 := by
  rw [callsMade, callsMade, allowed_cons h, reachesEnd_cons, List.length_cons, Nat.add_right_comm]

/-- A limit that the tokens reach cuts them off, and their end goes unnoticed. -/
theorem of_limit_le {limit : UInt64} {tokens : List Token} (hlimit : config.maxTokens = some limit)
    (hle : limit.toNat ≤ tokens.length) :
    config.allowed 0 tokens = tokens.take limit.toNat ∧ config.reachesEnd 0 tokens = false := by
  simp [allowed, reachesEnd, limitReached, hlimit, hle]

/-- A limit that the tokens do not reach allows all of them, and their end is noticed. -/
theorem of_length_lt {tokens : List Token}
    (h : ∀ limit, config.maxTokens = some limit → tokens.length < limit.toNat) :
    config.allowed 0 tokens = tokens ∧ config.reachesEnd 0 tokens = true := by
  cases hlimit : config.maxTokens with
  | none => simp [allowed, reachesEnd, limitReached, hlimit]
  | some limit =>
      have hlt := h limit hlimit
      have htake : tokens.take limit.toNat = tokens :=
        List.take_of_length_le (Nat.le_of_lt hlt)
      simp [allowed, reachesEnd, limitReached, hlimit, hlt, htake]

end Config

/-! ### The run -/

section Run

variable {σ : Type} [CharSource σ]

open Tokenizer

/-- **Writing tokens is writing their lines.**  When a line is refused, the token of that line is
the last that has been asked for. -/
theorem writeTokensFrom_eq (config : Config) (count : Nat) (t : Tokenizer σ) (sink : Sink) :
    writeTokensFrom config count t sink =
      match sink.writeAll (config.lines count t.collect.1) with
      | (_, none, sink') => ⟨.ok (count + (config.allowed count t.collect.1).length),
          (calls (config.callsMade count t.collect.1) t).2, sink'⟩
      | (n, some refusal, sink') => ⟨.error refusal, (calls (n + 1) t).2, sink'⟩ := by
  fun_induction writeTokensFrom config count t sink with
  | case1 count t sink hl =>
      obtain ⟨hallowed, hlines, hcalls⟩ := Config.of_limitReached hl t.collect.1
      rw [hallowed, hlines, hcalls]
      rfl
  | case2 count t sink hl t' ht he sink' hw =>
      have hbelow := Bool.eq_false_iff.2 hl
      have hnext := nextToken_of_next?_none ht
      rw [collect_of_none ht, Config.lines_nil hbelow, if_pos he, Config.callsMade_nil hbelow,
        Sink.writeAll_cons_of_none hw, Config.allowed_nil, calls_succ_of_nextToken hnext]
      rfl
  | case3 count t sink hl t' ht he refusal sink' hw =>
      have hnext := nextToken_of_next?_none ht
      rw [collect_of_none ht, Config.lines_nil (Bool.eq_false_iff.2 hl), if_pos he,
        Sink.writeAll_cons_of_some hw]
      simp only [calls_succ_of_nextToken hnext, calls_zero]
  | case4 count t sink hl t' ht he =>
      have hbelow := Bool.eq_false_iff.2 hl
      have hnext := nextToken_of_next?_none ht
      rw [collect_of_none ht, Config.lines_nil hbelow, if_neg he, Config.callsMade_nil hbelow,
        Config.allowed_nil, calls_succ_of_nextToken hnext]
      rfl
  | case5 count t sink hl token t' ht sink' hw ih =>
      have hbelow := Bool.eq_false_iff.2 hl
      have hnext := (nextToken_of_next?_some ht).1
      rw [collect_of_some ht, Config.lines_cons hbelow, Config.callsMade_cons hbelow,
        Config.allowed_cons hbelow, Sink.writeAll_cons_of_none hw, ih]
      rcases sink'.writeAll (config.lines (count + 1) t'.collect.1) with ⟨n, o, sink''⟩
      cases o with
      | none =>
          simp only [calls_succ_of_nextToken hnext, List.length_cons]
          rw [Nat.add_right_comm, Nat.add_assoc]
      | some refusal => simp only [calls_succ_of_nextToken hnext]
  | case6 count t sink hl token t' ht refusal sink' hw =>
      have hnext := (nextToken_of_next?_some ht).1
      rw [collect_of_some ht, Config.lines_cons (Bool.eq_false_iff.2 hl),
        Sink.writeAll_cons_of_some hw]
      simp only [calls_succ_of_nextToken hnext, calls_zero]

/-- Where the sink takes all lines, the tokens that the limit allows are written. -/
theorem writeTokens_of_taken {config : Config} {t : Tokenizer σ} {sink sink' : Sink}
    (h : sink.write (config.lines 0 t.collect.1).flatten = (none, sink')) :
    writeTokens config t sink = ⟨.ok (config.allowed 0 t.collect.1).length,
      (calls (config.callsMade 0 t.collect.1) t).2, sink'⟩ := by
  rw [← Sink.writeAll_snd] at h
  rw [writeTokens, writeTokensFrom_eq]
  rcases hw : sink.writeAll (config.lines 0 t.collect.1) with ⟨n, outcome⟩
  rw [hw] at h
  obtain rfl : outcome = (none, sink') := h
  simp only [Nat.zero_add]

/-- Where the sink refuses a line, the token of that line is the last that has been asked for. -/
theorem writeTokens_of_refused {config : Config} {t : Tokenizer σ} {sink sink' : Sink}
    {refusal : Refusal}
    (h : sink.write (config.lines 0 t.collect.1).flatten = (some refusal, sink')) :
    writeTokens config t sink = ⟨.error refusal,
      (calls ((sink.writeAll (config.lines 0 t.collect.1)).1 + 1) t).2, sink'⟩ := by
  rw [← Sink.writeAll_snd] at h
  rw [writeTokens, writeTokensFrom_eq]
  rcases hw : sink.writeAll (config.lines 0 t.collect.1) with ⟨n, outcome⟩
  rw [hw] at h
  obtain rfl : outcome = (some refusal, sink') := h
  rfl

/-- **What is written to a sink without a bound.**  With a limit that the tokens before the end of
the input reach, it is the lines of so many tokens, and no call is made beyond those tokens; with a
limit of zero the tokenizer is left as it is.  Otherwise it is the lines of all of them, then that
of the end if it is asked for, and the call that finds the end is made.  A line is the token as the
form shows it, and a line feed. -/
theorem writeTokens_unlimited (config : Config) (t : Tokenizer σ) (sink : Sink)
    (h : sink.capacity = none) :
    (∀ token : Token, token.line .text = encodeUtf8 token.text.toList ++ [0x0A] ∧
        token.line .json = encodeUtf8 token.json.toList ++ [0x0A]) ∧
      (∀ limit, config.maxTokens = some limit → limit.toNat ≤ t.collect.1.length →
        writeTokens config t sink = ⟨.ok limit.toNat, (calls limit.toNat t).2,
          sink.append ((t.collect.1.take limit.toNat).flatMap (Token.line config.format))⟩) ∧
      ((∀ limit, config.maxTokens = some limit → t.collect.1.length < limit.toNat) →
        writeTokens config t sink =
          ⟨.ok t.collect.1.length, (calls (t.collect.1.length + 1) t).2,
            sink.append (t.collect.1.flatMap (Token.line config.format) ++
              if config.emitEndOfInput then Token.endOfInput.line config.format else [])⟩) := by
  have hwritten := writeTokens_of_taken (t := t)
    (Sink.write_of_capacity_none h (config.lines 0 t.collect.1).flatten)
  refine ⟨fun token => ⟨token.line_text, token.line_json⟩, ?_, ?_⟩
  · intro limit hlimit hle
    obtain ⟨hallowed, hend⟩ := Config.of_limit_le hlimit hle
    rw [hwritten, Config.lines, Config.callsMade, hallowed, hend, List.length_take,
      Nat.min_eq_left hle]
    simp [List.flatMap]
  · intro hbelow
    obtain ⟨hallowed, hend⟩ := Config.of_length_lt hbelow
    rw [hwritten, Config.lines, Config.callsMade, hallowed, hend]
    cases config.emitEndOfInput <;> simp [List.flatMap]

/-- A limit that the tokens just reach, and one that they do not reach. -/
theorem writeTokens_unlimited_at_limit :
    ({} : Sink).capacity = none ∧
      (2 : UInt64).toNat ≤ (Tokenizer.ofString "a b").collect.1.length ∧
      writeTokens { maxTokens := some 2 } (Tokenizer.ofString "a b") {} =
        ⟨.ok (2 : UInt64).toNat, ((Tokenizer.ofString "a b").calls (2 : UInt64).toNat).2,
          ({} : Sink).append (((Tokenizer.ofString "a b").collect.1.take (2 : UInt64).toNat).flatMap
            (Token.line .text))⟩ ∧
      (Tokenizer.ofString "a b").collect.1.length < (3 : UInt64).toNat ∧
      writeTokens { maxTokens := some 3 } (Tokenizer.ofString "a b") {} =
        ⟨.ok (Tokenizer.ofString "a b").collect.1.length,
          ((Tokenizer.ofString "a b").calls ((Tokenizer.ofString "a b").collect.1.length + 1)).2,
          ({} : Sink).append ((Tokenizer.ofString "a b").collect.1.flatMap (Token.line .text) ++
            Token.endOfInput.line .text)⟩ ∧
      Token.endOfInput.line .text = encodeUtf8 "end of input".toList ++ [0x0A] := by
  have hreached : (2 : UInt64).toNat ≤ (Tokenizer.ofString "a b").collect.1.length := by
    decide +kernel
  have hbelow : (Tokenizer.ofString "a b").collect.1.length < (3 : UInt64).toNat := by
    decide +kernel
  have hlimits : ∀ limit : UInt64, some 3 = some limit →
      (Tokenizer.ofString "a b").collect.1.length < limit.toNat := by
    intro limit hlimit
    obtain rfl : 3 = limit := Option.some.inj hlimit
    exact hbelow
  obtain ⟨hlines, hcut, _⟩ :=
    writeTokens_unlimited { maxTokens := some 2 } (Tokenizer.ofString "a b") {} rfl
  obtain ⟨_, _, hall⟩ :=
    writeTokens_unlimited { maxTokens := some 3 } (Tokenizer.ofString "a b") {} rfl
  exact ⟨rfl, hreached, hcut 2 rfl hreached, hbelow, hall hlimits, (hlines .endOfInput).1⟩

/-- The lines that are written are those of the tokens of so many calls, the end of the input
included. -/
theorem lines_eq_map_calls (config : Config) (t : Tokenizer σ) :
    config.lines 0 t.collect.1 =
      (calls (config.lines 0 t.collect.1).length t).1.map (Token.line config.format) := by
  rw [calls_fst, ← collect_fst]
  by_cases h : ∃ limit, config.maxTokens = some limit ∧ limit.toNat ≤ t.collect.1.length
  · obtain ⟨limit, hlimit, hle⟩ := h
    obtain ⟨hallowed, hend⟩ := Config.of_limit_le hlimit hle
    rw [Config.lines, hallowed, hend]
    simp [hle]
  · have hbelow : ∀ limit, config.maxTokens = some limit → t.collect.1.length < limit.toNat := by
      intro limit hlimit
      refine Nat.lt_of_not_le ?_
      intro hle
      exact h ⟨limit, hlimit, hle⟩
    obtain ⟨hallowed, hend⟩ := Config.of_length_lt hbelow
    rw [Config.lines, hallowed, hend]
    cases config.emitEndOfInput <;> simp [List.take_of_length_le]

/-- A line that is written is that of the last token of the calls up to it. -/
theorem getElem?_lines {config : Config} {t : Tokenizer σ} {j : Nat}
    (h : j < (config.lines 0 t.collect.1).length) :
    (config.lines 0 t.collect.1)[j]? =
      ((calls (j + 1) t).1.getLast?).map (Token.line config.format) := by
  obtain ⟨more, hmore⟩ := Nat.exists_eq_add_of_le (Nat.succ_le_of_lt h)
  have hlen : (calls (j + 1) t).1.length = j + 1 := length_calls (j + 1) t
  have hj : j < (calls (j + 1) t).1.length := by omega
  rw [lines_eq_map_calls, hmore, Nat.succ_eq_add_one, calls_add, List.getElem?_map,
    List.getElem?_append_left hj, List.getLast?_eq_getElem?, hlen, Nat.add_sub_cancel]

/-- **What is written to a sink with a bound**, compared with a sink without one.  If it is all that
is written without the bound, the outcome is the same.  If not, the sink has taken the first bytes
of it and refuses, and the tokenizer is left right after the token of the line that was cut, be it
the end of the input.  In what parts the bytes come makes no difference to a sink. -/
theorem writeTokens_limited (config : Config) (t : Tokenizer σ) (limit : Nat) (refusal : Refusal) :
    (∃ (bytes : List UInt8) (n : Nat) (rest : Tokenizer σ),
      writeTokens config t {} = ⟨.ok n, rest, ({} : Sink).append bytes⟩ ∧
      bytes = (config.lines 0 t.collect.1).flatten ∧
      (bytes.length ≤ limit → writeTokens config t (.limited limit refusal) =
        ⟨.ok n, rest, (Sink.limited limit refusal).append bytes⟩) ∧
      (limit < bytes.length → ∃ j, (∀ i, CutAt (config.lines 0 t.collect.1) limit i ↔ i = j) ∧
        (config.lines 0 t.collect.1)[j]? =
          ((calls (j + 1) t).1.getLast?).map (Token.line config.format) ∧
        writeTokens config t (.limited limit refusal) = ⟨.error refusal, (calls (j + 1) t).2,
          (Sink.limited limit refusal).append (bytes.take limit)⟩)) ∧
      ∀ (sink : Sink) (parts : List (List UInt8)),
        (sink.writeAll parts).2 = sink.write parts.flatten := by
  refine ⟨⟨(config.lines 0 t.collect.1).flatten, (config.allowed 0 t.collect.1).length,
    (calls (config.callsMade 0 t.collect.1) t).2,
    writeTokens_of_taken (Sink.write_of_capacity_none rfl _), rfl, ?_, ?_⟩, Sink.writeAll_snd⟩
  · intro hle
    exact writeTokens_of_taken (Sink.write_limited_of_le hle)
  · intro hlt
    have hcut := Sink.cutAt_writeAll refusal hlt
    refine ⟨((Sink.limited limit refusal).writeAll (config.lines 0 t.collect.1)).1, ?_,
      getElem?_lines hcut.lt_length, writeTokens_of_refused (Sink.write_limited_of_lt hlt)⟩
    intro i
    constructor
    · intro hi
      exact hi.unique hcut
    · rintro rfl
      exact hcut

end Run

/-- A bound within the two bytes of a symbol: the line of that symbol is cut, and its token is the
last that has been asked for. -/
theorem writeTokens_limited_within_symbol :
    9 < (({} : Config).lines 0 (Tokenizer.ofString "é x").collect.1).flatten.length ∧
      CutAt (({} : Config).lines 0 (Tokenizer.ofString "é x").collect.1) 9 0 ∧
      writeTokens {} (Tokenizer.ofString "é x") (.limited 9 (.failing "gone")) =
        ⟨.error (.failing "gone"), ((Tokenizer.ofString "é x").calls 1).2,
          (Sink.limited 9 (.failing "gone")).append
            ((({} : Config).lines 0 (Tokenizer.ofString "é x").collect.1).flatten.take 9)⟩ := by
  have hlength :
      9 < (({} : Config).lines 0 (Tokenizer.ofString "é x").collect.1).flatten.length := by
    decide +kernel
  have hcut : CutAt (({} : Config).lines 0 (Tokenizer.ofString "é x").collect.1) 9 0 :=
    ⟨by decide +kernel, by decide +kernel, by decide +kernel⟩
  obtain ⟨⟨_, _, _, _, rfl, _, hrefused⟩, _⟩ :=
    writeTokens_limited {} (Tokenizer.ofString "é x") 9 (.failing "gone")
  obtain ⟨j, hj, _, hwritten⟩ := hrefused hlength
  obtain rfl : 0 = j := (hj 0).1 hcut
  exact ⟨hlength, hcut, hwritten⟩

end StreamLexer
