/-
**Running a command line.**

The configuration is read first, then the input is opened, and then its tokens are written.  A
failure of either of the first two steps leaves nothing written.  An input that fails while it is
read ends there; its tokens are written as if it had ended, and the failure is reported after them,
if the tokens written have used the input up to it.

Files and the standard input are reached through operations in some monad, so that the same
definition runs on a file tree that is a value and on the files of a system.

Main definitions:

* `StreamLexer.CommandLine.Surroundings` — the operations that reach files and standard input;
* `StreamLexer.CommandLine.Report` — what a run leaves: output, diagnosis and exit code;
* `StreamLexer.CommandLine.transcribe` — the tokens of an opened input;
* `StreamLexer.CommandLine.runOptions`, `StreamLexer.CommandLine.run` — **a run**.
-/

import StreamLexer.CommandLine.Help
import StreamLexer.Config.Reader
import StreamLexer.Failure
import StreamLexer.FileTree
import StreamLexer.Output.Write

set_option relaxedAutoImplicit false
set_option autoImplicit false

namespace StreamLexer.CommandLine

/-! ### Surroundings and reports -/

/-- How files and the standard input are reached. -/
structure Surroundings (m : Type → Type) where
  /-- A reader of the file with the given path. -/
  openFile : String → m (Except ReadFailure ByteReader)
  standardInput : m ByteReader

/-- The surroundings made of a file tree and a standard input, reached without effect. -/
def Surroundings.ofFileTree (tree : FileTree) (standardInput : ByteReader) : Surroundings Id where
  openFile path :=
    match tree.reader path with
    | .error e => .error e.failure
    | .ok r => .ok r
  standardInput := standardInput

/-- What a run leaves. -/
inductive Report where
  /-- Tokens were written, or none; and what failed after that, if anything did. -/
  | ran (output : List UInt8) (failure : Option Failure)
  /-- The user was told something. -/
  | told (text : String)
  /-- The command line broke the rules. -/
  | misused (misuse : Misuse)
deriving DecidableEq, Repr

namespace Report

/-- The bytes on the standard output. -/
def output : Report → List UInt8
  | ran output _ => output
  | told text => encodeUtf8 text.toList
  | misused _ => []

/-- How a failure is shown to the user. -/
def failureText (failure : Failure) : String := "Error: " ++ failure.message

/-- What the user is told of a failed run. -/
def failureText? : Report → Option String
  | ran _ (some failure) => some (failureText failure)
  | _ => none

/-- The text on the standard error. -/
def diagnosis : Report → String
  | ran _ (some failure) => joinLines [failureText failure]
  | ran _ none | told _ => ""
  | misused misuse => misuse.report

/-- The exit code. -/
def exitCode : Report → UInt8
  | ran _ none | told _ => 0
  | ran _ (some _) => 1
  | misused _ => 2

end Report

/-! ### The steps of a run -/

/-- A configuration with what the command line puts in its place. -/
def Options.override (options : Options) (config : Config) : Config where
  format := options.format.getD config.format
  emitEndOfInput := config.emitEndOfInput && !options.omitEndOfInput
  maxTokens := config.maxTokens

/-- The configuration that a reader, if it could be had, delivers. -/
def configOfReader : Except ReadFailure ByteReader → Except Failure Config
  | .error failure => .error (.ofRead failure)
  | .ok r =>
      match Config.ofReader r with
      | .error cause => .error (.config cause)
      | .ok config => .ok config

/-- The tokens of an opened input, and the failure it ran into. -/
def transcribe (config : Config) (r : ByteReader) : Report :=
  let written := writeTokens config (Tokenizer.ofReader r) {}
  match written.result with
  | .error refusal => .ran written.sink.accepted.toList (some (.ofRefusal refusal))
  | .ok _ =>
      .ran written.sink.accepted.toList (written.tokenizer.source.takeFailure.1.map .ofRead)

variable {m : Type → Type} [Monad m]

/-- The configuration of a run. -/
def loadConfig (s : Surroundings m) (options : Options) : m (Except Failure Config) :=
  match options.config with
  | none => pure (.ok (options.override {}))
  | some path => do
      let r ← s.openFile path
      pure ((configOfReader r).map options.override)

/-- The input of a run: a file, or the standard input if there is no path or a lone dash. -/
def openInput (s : Surroundings m) (options : Options) : m (Except Failure ByteReader) :=
  match options.input with
  | none | some "-" => do
      let r ← s.standardInput
      pure (.ok r)
  | some path => do
      let r ← s.openFile path
      pure (r.mapError .ofRead)

/-- **Runs the program with the given options.** -/
def runOptions (s : Surroundings m) (options : Options) : m Report := do
  match ← loadConfig s options with
  | .error failure => pure (.ran [] (some failure))
  | .ok config =>
      match ← openInput s options with
      | .error failure => pure (.ran [] (some failure))
      | .ok r => pure (transcribe config r)

/-- **Runs a command line.** -/
def run (s : Surroundings m) (arguments : List String) : m Report :=
  match parse arguments with
  | .ok options => runOptions s options
  | .error .shortHelp => pure (.told shortHelp)
  | .error .longHelp => pure (.told longHelp)
  | .error .version => pure (.told versionLine)
  | .error (.misuse misuse) => pure (.misused misuse)

end StreamLexer.CommandLine
