/-
**The arguments of a command line.**

Arguments are taken from left to right.  An argument with two leading dashes names an option in
full, its value after an equals sign or in the next argument; an argument with one dash is a
cluster of one-letter options, of which the last may take what is left of the cluster, or the next
argument, as its value.  Two dashes alone end the options.  Anything else is the input, a lone dash
included, and there is one input at most.  A value in an argument of its own has no leading dash,
unless it is a lone dash.  No option is given twice, and no value is empty.

The first argument that breaks a rule, or asks for help or for the version, decides.

Main definitions:

* `StreamLexer.CommandLine.Options` — what a run is asked to do;
* `StreamLexer.CommandLine.Stop` — why there is no run: help, version or misuse;
* `StreamLexer.CommandLine.step` — one argument;
* `StreamLexer.CommandLine.parse` — **all arguments**.
-/

import StreamLexer.Config.Basic

set_option relaxedAutoImplicit false
set_option autoImplicit false

namespace StreamLexer.CommandLine

/-! ### What can be asked for -/

/-- What a run is asked to do. -/
structure Options where
  /-- The path of the input. -/
  input : Option String := none
  /-- The path of the configuration. -/
  config : Option String := none
  /-- The format, whatever the configuration says. -/
  format : Option OutputFormat := none
  /-- Whether the line at the end of the input is left out, whatever the configuration says. -/
  omitEndOfInput : Bool := false
  /-- Whether more is to be logged; no output depends on it. -/
  verbose : Bool := false
deriving DecidableEq, Repr

/-- The options that take a value. -/
inductive ValueOption where
  | config
  | format
deriving DecidableEq, Repr

/-- The options that take none. -/
inductive Flag where
  | omitEndOfInput
  | verbose
  | shortHelp
  | longHelp
  | version
deriving DecidableEq, Repr

/-- How the value options are shown to the user. -/
def ValueOption.display : ValueOption → String
  | config => "--config <CONFIG>"
  | format => "--format <FORMAT>"

/-- How the flags are shown to the user. -/
def Flag.display : Flag → String
  | omitEndOfInput => "--no-eoi"
  | verbose => "--verbose"
  | shortHelp | longHelp => "--help"
  | version => "--version"

/-- An option of either kind. -/
inductive Named where
  | value (option : ValueOption)
  | flag (flag : Flag)
deriving DecidableEq, Repr

/-- The option with the given name of one letter. -/
def Named.ofLetter? : Char → Option Named
  | 'c' => some (.value .config)
  | 'f' => some (.value .format)
  | 'v' => some (.flag .verbose)
  | 'h' => some (.flag .shortHelp)
  | 'V' => some (.flag .version)
  | _ => none

/-- The option with the given full name. -/
def Named.ofName? : String → Option Named
  | "config" => some (.value .config)
  | "format" => some (.value .format)
  | "no-eoi" => some (.flag .omitEndOfInput)
  | "verbose" => some (.flag .verbose)
  | "help" => some (.flag .longHelp)
  | "version" => some (.flag .version)
  | _ => none

/-! ### What can go wrong -/

/-- How a command line breaks the rules. -/
inductive Misuse where
  /-- There is no such option, or there is an input already. -/
  | unexpectedArgument (argument : String)
  | missingValue (option : ValueOption)
  | invalidValue (value : String) (option : ValueOption)
  | emptyInput
  | repeatedValue (option : ValueOption)
  | repeatedFlag (flag : Flag)
  /-- A flag is given a value. -/
  | surplusValue (value : String) (flag : Flag)
deriving DecidableEq, Repr

/-- The wording of a misuse. -/
def Misuse.message : Misuse → String
  | unexpectedArgument argument => "unexpected argument '" ++ argument ++ "' found"
  | missingValue option =>
      "a value is required for '" ++ option.display ++ "' but none was supplied"
  | invalidValue value option => "invalid value '" ++ value ++ "' for '" ++ option.display ++ "'"
  | emptyInput => "a value is required for '[INPUT]' but none was supplied"
  | repeatedValue option => "the argument '" ++ option.display ++ "' cannot be used multiple times"
  | repeatedFlag flag => "the argument '" ++ flag.display ++ "' cannot be used multiple times"
  | surplusValue value flag =>
      "unexpected value '" ++ value ++ "' for '" ++ flag.display ++ "' found; no more were expected"

/-- Why a command line asks for no run. -/
inductive Stop where
  | shortHelp
  | longHelp
  | version
  | misuse (misuse : Misuse)
deriving DecidableEq, Repr

/-! ### One argument -/

/-- What an argument looks like. -/
inductive Shape where
  /-- Two dashes alone. -/
  | separator
  /-- A full name, and the value after the first equals sign. -/
  | named (name : List Char) (value : Option (List Char))
  /-- Letters after one dash, at least one. -/
  | cluster (letters : List Char)
  | plain
deriving DecidableEq, Repr

/-- Cuts a text at its first equals sign. -/
def cutAtEquals : List Char → List Char × Option (List Char)
  | [] => ([], none)
  | '=' :: cs => ([], some cs)
  | c :: cs =>
      let (name, value) := cutAtEquals cs
      (c :: name, value)

/-- The shape of an argument. -/
def shape : List Char → Shape
  | ['-', '-'] => .separator
  | '-' :: '-' :: cs =>
      let (name, value) := cutAtEquals cs
      .named name value
  | '-' :: c :: cs => .cluster (c :: cs)
  | _ => .plain

/-- What is known after some arguments. -/
structure Progress where
  options : Options := {}
  /-- The option whose value is the next argument. -/
  pending : Option ValueOption := none
  /-- Whether the options have ended. -/
  ended : Bool := false
deriving DecidableEq, Repr

namespace Progress

/-- Gives a value to an option. -/
def setValue (p : Progress) (option : ValueOption) (value : String) : Except Stop Progress :=
  match option with
  | .config =>
      if value = "" then .error (.misuse (.invalidValue value option))
      else if p.options.config.isSome then .error (.misuse (.repeatedValue option))
      else .ok { p with options.config := some value, pending := none }
  | .format =>
      match OutputFormat.parse? false value with
      | none => .error (.misuse (.invalidValue value option))
      | some format =>
          if p.options.format.isSome then .error (.misuse (.repeatedValue option))
          else .ok { p with options.format := some format, pending := none }

/-- Raises a flag. -/
def setFlag (p : Progress) (flag : Flag) : Except Stop Progress :=
  match flag with
  | .omitEndOfInput =>
      if p.options.omitEndOfInput then .error (.misuse (.repeatedFlag flag))
      else .ok { p with options.omitEndOfInput := true }
  | .verbose =>
      if p.options.verbose then .error (.misuse (.repeatedFlag flag))
      else .ok { p with options.verbose := true }
  | .shortHelp => .error .shortHelp
  | .longHelp => .error .longHelp
  | .version => .error .version

/-- Takes an argument as the input. -/
def setInput (p : Progress) (argument : String) : Except Stop Progress :=
  if p.options.input.isSome then .error (.misuse (.unexpectedArgument argument))
  else if argument = "" then .error (.misuse .emptyInput)
  else .ok { p with options.input := some argument }

/-- Takes a full name, with or without a value. -/
def takeNamed (p : Progress) (name : List Char) (value : Option (List Char)) :
    Except Stop Progress :=
  match Named.ofName? (String.ofList name), value with
  | none, _ => .error (.misuse (.unexpectedArgument (String.ofList ('-' :: '-' :: name))))
  | some (.value option), none => .ok { p with pending := some option }
  | some (.value option), some value => p.setValue option (String.ofList value)
  | some (.flag flag), none => p.setFlag flag
  | some (.flag flag), some value => .error (.misuse (.surplusValue (String.ofList value) flag))

/-- Takes a cluster, letter by letter.  An equals sign before a value is no part of it. -/
def takeCluster (p : Progress) : List Char → Except Stop Progress
  | [] => .ok p
  | c :: cs =>
      match Named.ofLetter? c with
      | none => .error (.misuse (.unexpectedArgument (String.ofList ['-', c])))
      | some (.flag flag) =>
          match p.setFlag flag with
          | .error stop => .error stop
          | .ok p' => p'.takeCluster cs
      | some (.value option) =>
          -- The rest of the cluster is the value; without a rest it is the next argument.
          match cs with
          | [] => .ok { p with pending := some option }
          | '=' :: value => p.setValue option (String.ofList value)
          | value => p.setValue option (String.ofList value)

end Progress

/-- Takes one argument. -/
def step (p : Progress) (argument : String) : Except Stop Progress :=
  if p.ended then p.setInput argument
  else
    match shape argument.toList, p.pending with
    | .plain, none => p.setInput argument
    | .plain, some option => p.setValue option argument
    | _, some option => .error (.misuse (.missingValue option))
    | .separator, none => .ok { p with ended := true }
    | .named name value, none => p.takeNamed name value
    | .cluster letters, none => p.takeCluster letters

/-- **The options of a command line**, or why there is no run. -/
def parse (arguments : List String) : Except Stop Options :=
  match arguments.foldlM step {} with
  | .error stop => .error stop
  | .ok p =>
      match p.pending with
      | some option => .error (.misuse (.missingValue option))
      | none => .ok p.options

end StreamLexer.CommandLine
