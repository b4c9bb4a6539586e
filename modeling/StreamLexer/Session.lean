/-
**Using a tokenizer step by step.**

A tokenizer can be asked for tokens in several ways, and its source can be used directly in between:
read from, handed to another tokenizer, moved past a comment, or taken back.  A session is a list
of such steps; it shows what each step comes to and where the source then stands.

Main definitions:

* `StreamLexer.ObservedSource` — a source that tells its position and hands over its failure;
* `StreamLexer.Step`, `StreamLexer.Outcome` — what can be done, and what it comes to;
* `StreamLexer.Step.perform` — one step;
* `StreamLexer.Session.run` — **a whole session**.
-/

import StreamLexer.Output.Write

set_option relaxedAutoImplicit false
set_option autoImplicit false

namespace StreamLexer

/-- A source that can be observed from outside. -/
class ObservedSource (σ : Type) extends CharSource σ where
  /-- Where the source stands. -/
  position : σ → Nat
  /-- The failure that ended the source, handed over once. -/
  takeFailure : σ → Option ReadFailure × σ

/-- A text stands where so many bytes of it are unread, and never fails. -/
instance : ObservedSource TextCursor where
  position s := (encodeUtf8 s.unread).length
  takeFailure s := (none, s)

/-- A script stands where so many requests have been answered, and never fails. -/
instance : ObservedSource ScriptedSource where
  position s := s.requests
  takeFailure s := (none, s)

/-- A decoder stands where its reader has been asked so often. -/
instance : ObservedSource Utf8Decoder where
  position d := d.reader.requests
  takeFailure d := d.takeFailure

/-- One use of a tokenizer. -/
inductive Step where
  | nextToken
  | next
  | collect
  | take (n : Nat)
  /-- Reads a character past the tokenizer, whose lookahead stays. -/
  | readChar
  /-- Lets a second tokenizer read one token; the character it has ahead is lost. -/
  | innerToken
  | skipComment (k : Comment)
  | takeFailure
  /-- Starts again with the source as it is; the character ahead is lost. -/
  | restart
  | write (config : Config) (sink : Sink)
  | takeSource
deriving DecidableEq, Repr

/-- What a step comes to. -/
inductive Outcome (σ : Type) where
  | token (token : Token)
  | token? (token : Option Token)
  | tokens (tokens : List Token)
  | char? (c : Option Char)
  | failure? (failure : Option ReadFailure)
  | done
  | written (result : Except Refusal Nat) (sink : Sink)
  | source (s : σ)

variable {σ : Type} [ObservedSource σ]

/-- Performs one step. -/
def Step.perform (step : Step) (t : Tokenizer σ) : Outcome σ × Tokenizer σ :=
  match step with
  | nextToken => let (token, t') := t.nextToken; (.token token, t')
  | next => let (token, t') := t.next?; (.token? token, t')
  | collect => let (tokens, t') := t.collect; (.tokens tokens, t')
  | take n => let (tokens, t') := t.take n; (.tokens tokens, t')
  | readChar =>
      let (c, s) := CharSource.next t.source
      (.char? c, ⟨s, t.lookahead⟩)
  | innerToken =>
      let (token, inner) := (Tokenizer.ofSource t.source).nextToken
      (.token token, ⟨inner.source, t.lookahead⟩)
  | skipComment k =>
      let (c, s) := k.skip t.source
      (.char? c, ⟨s, t.lookahead⟩)
  | takeFailure =>
      let (failure, s) := ObservedSource.takeFailure t.source
      (.failure? failure, ⟨s, t.lookahead⟩)
  | restart => (.done, .ofSource t.source)
  | write config sink =>
      let written := writeTokens config t sink
      (.written written.result written.sink, written.tokenizer)
  | takeSource => (.source t.source, t)

/-- **Runs a session**: the outcome of each step, and the position of the source after it. -/
def Session.run : List Step → Tokenizer σ → List (Outcome σ × Nat)
  | [], _ => []
  | step :: steps, t =>
      let (outcome, t') := step.perform t
      (outcome, ObservedSource.position t'.source) :: run steps t'

end StreamLexer
