/-
**Writing the tokens of an input.**

Tokens are written one line each as they are read, up to the limit of the configuration or the end
of the input.  At the limit nothing more is read, so the end of the input is not noticed there; at
the end of the input its own line is written if the configuration asks for it.  A sink that
refuses a line stops the writing, and the token of that line has been read by then.

Main definitions:

* `StreamLexer.Token.line` — the bytes of a token's line;
* `StreamLexer.Written` — the count of tokens or the refusal, and what is left of the tokenizer and
  the sink;
* `StreamLexer.writeTokens` — **writing all tokens**.

Main results:

* `StreamLexer.Token.line_text`, `StreamLexer.Token.line_json` — **the bytes of a line** in either
  form.
-/

import StreamLexer.Config.Basic
import StreamLexer.Output.Sink
import StreamLexer.Text.Utf8
import StreamLexer.Token.Render
import StreamLexer.Tokenizer

set_option relaxedAutoImplicit false
set_option autoImplicit false

namespace StreamLexer

/-- A token in the given form. -/
def Token.render (format : OutputFormat) (token : Token) : String :=
  match format with
  | .text => token.text
  | .json => token.json

/-- The bytes of a token's line, the line feed included. -/
def Token.line (format : OutputFormat) (token : Token) : List UInt8 :=
  encodeUtf8 ((token.render format).toList ++ ['\n'])

/-- **A line in running text** is the encoding of the token's text, and a line feed. -/
theorem Token.line_text (token : Token) :
    token.line .text = encodeUtf8 token.text.toList ++ [0x0A] := by
  rw [line, render, encodeUtf8_append]
  rfl

/-- **A data line** is the encoding of the token's object, and a line feed. -/
theorem Token.line_json (token : Token) :
    token.line .json = encodeUtf8 token.json.toList ++ [0x0A] := by
  rw [line, render, encodeUtf8_append]
  rfl

/-- What writing came to. -/
structure Written (σ : Type) where
  /-- The number of tokens written, or why writing stopped. -/
  result : Except Refusal Nat
  tokenizer : Tokenizer σ
  sink : Sink

variable {σ : Type} [CharSource σ]

/-- Writes tokens after `count` of them have been written. -/
def writeTokensFrom (config : Config) (count : Nat) (t : Tokenizer σ) (sink : Sink) : Written σ :=
  -- At the limit nothing is read, so the end of the input goes unnoticed.
  if config.limitReached count then ⟨.ok count, t, sink⟩
  else
    match _h : t.next? with
    | (none, t') =>
        if config.emitEndOfInput then
          match sink.write (Token.endOfInput.line config.format) with
          | (none, sink') => ⟨.ok count, t', sink'⟩
          | (some refusal, sink') => ⟨.error refusal, t', sink'⟩
        else ⟨.ok count, t', sink⟩
    | (some token, t') =>
        match sink.write (token.line config.format) with
        | (none, sink') => writeTokensFrom config (count + 1) t' sink'
        | (some refusal, sink') => ⟨.error refusal, t', sink'⟩
termination_by t.pending
decreasing_by exact Tokenizer.pending_next?_lt _h

theorem writeTokensFrom_of_limit {config : Config} {count : Nat} {t : Tokenizer σ} {sink : Sink}
    (h : config.limitReached count = true) :
    writeTokensFrom config count t sink = ⟨.ok count, t, sink⟩ := by
  rw [writeTokensFrom, if_pos h]

theorem writeTokensFrom_of_none {config : Config} {count : Nat} {t t' : Tokenizer σ} {sink : Sink}
    (h : config.limitReached count = false) (hn : t.next? = (none, t')) :
    writeTokensFrom config count t sink =
      if config.emitEndOfInput then
        match sink.write (Token.endOfInput.line config.format) with
        | (none, sink') => ⟨.ok count, t', sink'⟩
        | (some refusal, sink') => ⟨.error refusal, t', sink'⟩
      else ⟨.ok count, t', sink⟩ := by
  rw [writeTokensFrom, if_neg (Bool.eq_false_iff.1 h)]
  split
  · next heq => rw [hn] at heq; rw [(Prod.mk.inj heq).2]
  · next heq => rw [hn] at heq; simp at heq

theorem writeTokensFrom_of_some {config : Config} {count : Nat} {t t' : Tokenizer σ} {sink : Sink}
    {token : Token} (h : config.limitReached count = false) (hn : t.next? = (some token, t')) :
    writeTokensFrom config count t sink = match sink.write (token.line config.format) with
      | (none, sink') => writeTokensFrom config (count + 1) t' sink'
      | (some refusal, sink') => ⟨.error refusal, t', sink'⟩ := by
  rw [writeTokensFrom, if_neg (Bool.eq_false_iff.1 h)]
  split
  · next heq => rw [hn] at heq; simp at heq
  · next heq =>
      rw [hn] at heq
      obtain ⟨htoken, rfl⟩ := Prod.mk.inj heq
      rw [Option.some.inj htoken]

/-- **Writes the tokens of an input.** -/
def writeTokens (config : Config) (t : Tokenizer σ) (sink : Sink) : Written σ :=
  writeTokensFrom config 0 t sink

end StreamLexer
