/-
**The program.**

The files of the system and its standard input are made into readers, the command line is run, and
its report is written out.

Main definitions:

* `StreamLexer.CommandLine.readBytes` — a reader of what a stream delivers, a failure at its end
  included;
* `StreamLexer.CommandLine.systemSurroundings` — the files and the standard input of the system;
* `main` — **the program**.
-/

import StreamLexer.CommandLine.Run

set_option relaxedAutoImplicit false
set_option autoImplicit false

namespace StreamLexer.CommandLine

/-- A failure as the system reports it, with its number. -/
def systemFailure (details : String) (code : UInt32) : ReadFailure :=
  ⟨"Uncategorized", details ++ " (os error " ++ toString code.toNat ++ ")"⟩

/-- A failure of reading or opening a file. -/
def readFailure (e : IO.Error) : ReadFailure :=
  match e with
  | .noFileOrDirectory _ _ _ => OpenError.missing.failure
  | .invalidArgument _ code details | .permissionDenied _ code details
  | .resourceExhausted _ code details | .inappropriateType _ code details
  | .noSuchThing _ code details | .alreadyExists _ code details =>
      systemFailure details code
  | .otherError code details | .resourceBusy code details | .resourceVanished code details
  | .unsupportedOperation code details | .hardwareFault code details
  | .unsatisfiedConstraints code details | .illegalOperation code details
  | .protocolError code details | .timeExpired code details => systemFailure details code
  | .interrupted _ code details => systemFailure details code
  | .unexpectedEof => ⟨"UnexpectedEof", "unexpected end of file"⟩
  | .userError message => ⟨"Other", message⟩

/-- Reads until nothing more comes, or until a read fails.  An interrupted read is tried again. -/
partial def readBytes (stream : IO.FS.Stream) (answers : Array ReadAnswer) : IO ByteReader := do
  let answer : Except IO.Error ByteArray ←
    try
      let chunk ← stream.read 4096
      pure (.ok chunk)
    catch e => pure (.error e)
  match answer with
  | .ok chunk =>
      if chunk.isEmpty then pure ⟨answers.toList, 0⟩
      else readBytes stream (answers ++ chunk.data.map .byte)
  | .error (.interrupted _ _ _) => readBytes stream (answers.push .interrupted)
  | .error e => pure ⟨(answers.push (.failed (readFailure e))).toList, 0⟩

/-- The files and the standard input of the system. -/
def systemSurroundings : Surroundings IO where
  openFile path := do
    try
      let handle ← IO.FS.Handle.mk path .read
      let r ← readBytes (IO.FS.Stream.ofHandle handle) #[]
      pure (.ok r)
    catch e => pure (.error (readFailure e))
  standardInput := do
    readBytes (← IO.getStdin) #[]

end StreamLexer.CommandLine

/-- **The program.** -/
def main (arguments : List String) : IO UInt32 := do
  let report ← StreamLexer.CommandLine.run StreamLexer.CommandLine.systemSurroundings arguments
  let stdout ← IO.getStdout
  stdout.write ⟨report.output.toArray⟩
  stdout.flush
  IO.eprint report.diagnosis
  pure report.exitCode.toUInt32
