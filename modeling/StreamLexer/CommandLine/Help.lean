/-
**What a user is told.**

The two forms of the help text, the version, and the line that closes a report of misuse.

Main definitions:

* `StreamLexer.CommandLine.shortHelp`, `StreamLexer.CommandLine.longHelp` — the options, one line
  each, or with room around them;
* `StreamLexer.CommandLine.versionLine` — name and version;
* `StreamLexer.CommandLine.Misuse.report` — a misuse, and where to find help.
-/

import StreamLexer.CommandLine.Options

set_option relaxedAutoImplicit false
set_option autoImplicit false

namespace StreamLexer.CommandLine

/-- Lines of text, a line feed after each. -/
def joinLines (lines : List String) : String := String.join (lines.map (· ++ "\n"))

/-- The form of a command line. -/
def usageLine : String := "Usage: rustlex [OPTIONS] [INPUT]"

/-- The name and the version of the program. -/
def versionLine : String := joinLines ["rustlex 0.1.0"]

/-- The help text with one line for each option. -/
def shortHelp : String := joinLines [
  "Tokenize Rust-like source code",
  "",
  usageLine,
  "",
  "Arguments:",
  "  [INPUT]  Source file to tokenize; reads stdin when absent or `-`",
  "",
  "Options:",
  "  -c, --config <CONFIG>  Path to a JSON config file",
  "  -f, --format <FORMAT>  Output format, overrides the config file [possible values: text, json]",
  "      --no-eoi           Do not print the final end-of-input token",
  "  -v, --verbose          Enable debug logging",
  "  -h, --help             Print help (see more with '--help')",
  "  -V, --version          Print version"]

/-- The help text with a paragraph for each option. -/
def longHelp : String := joinLines [
  "Tokenize Rust-like source code",
  "",
  usageLine,
  "",
  "Arguments:",
  "  [INPUT]",
  "          Source file to tokenize; reads stdin when absent or `-`",
  "",
  "Options:",
  "  -c, --config <CONFIG>",
  "          Path to a JSON config file",
  "",
  "  -f, --format <FORMAT>",
  "          Output format, overrides the config file",
  "",
  "          Possible values:",
  "          - text: One human-readable token per line",
  "          - json: One JSON object per line",
  "",
  "      --no-eoi",
  "          Do not print the final end-of-input token",
  "",
  "  -v, --verbose",
  "          Enable debug logging",
  "",
  "  -h, --help",
  "          Print help (see a summary with '-h')",
  "",
  "  -V, --version",
  "          Print version"]

/-- A misuse, the form of a command line, and where to find help. -/
def Misuse.report (misuse : Misuse) : String :=
  joinLines ["error: " ++ misuse.message, "", usageLine, "",
    "For more information, try '--help'."]

end StreamLexer.CommandLine
