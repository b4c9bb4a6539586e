/-
**The reserved words.**

The reserved words form a closed set, so they are an enumeration; the spelling of each is fixed and
no two agree.  A word is recognised in two ways: by its spelling, read case by case, and by a
search of the table of spellings, which is what the scanner consults.

Main definitions:

* `StreamLexer.Keyword` — the reserved words, in the order in which they are listed;
* `StreamLexer.Keyword.spelling` — how each is written;
* `StreamLexer.Keyword.ofString?` — the reserved word written as a given text, if any;
* `StreamLexer.Keyword.all`, `StreamLexer.Keyword.lookup` — the list of all reserved words, and
  the search of the table that pairs each with its spelling.
-/

set_option relaxedAutoImplicit false
set_option autoImplicit false

namespace StreamLexer

/-- A reserved word.  `selfType` and `selfValue` differ only in the case of the first letter. -/
inductive Keyword where
  | asKw | asyncKw | awaitKw | breakKw | constKw | continueKw
  | crateKw | dynKw | elseKw | enumKw | externKw | falseKw
  | fnKw | forKw | ifKw | implKw | inKw | letKw
  | loopKw | matchKw | modKw | moveKw | mutKw | pubKw
  | refKw | returnKw | selfType | selfValue | staticKw | structKw
  | superKw | traitKw | trueKw | typeKw | unsafeKw | useKw
  | whereKw | whileKw
deriving DecidableEq, Repr

namespace Keyword

/-- Every reserved word, in order of declaration. -/
def all : List Keyword :=
  [.asKw, .asyncKw, .awaitKw, .breakKw, .constKw, .continueKw,
   .crateKw, .dynKw, .elseKw, .enumKw, .externKw, .falseKw,
   .fnKw, .forKw, .ifKw, .implKw, .inKw, .letKw,
   .loopKw, .matchKw, .modKw, .moveKw, .mutKw, .pubKw,
   .refKw, .returnKw, .selfType, .selfValue, .staticKw, .structKw,
   .superKw, .traitKw, .trueKw, .typeKw, .unsafeKw, .useKw,
   .whereKw, .whileKw]

/-- How a reserved word is written. -/
def spelling : Keyword → String
  | .asKw => "as"
  | .asyncKw => "async"
  | .awaitKw => "await"
  | .breakKw => "break"
  | .constKw => "const"
  | .continueKw => "continue"
  | .crateKw => "crate"
  | .dynKw => "dyn"
  | .elseKw => "else"
  | .enumKw => "enum"
  | .externKw => "extern"
  | .falseKw => "false"
  | .fnKw => "fn"
  | .forKw => "for"
  | .ifKw => "if"
  | .implKw => "impl"
  | .inKw => "in"
  | .letKw => "let"
  | .loopKw => "loop"
  | .matchKw => "match"
  | .modKw => "mod"
  | .moveKw => "move"
  | .mutKw => "mut"
  | .pubKw => "pub"
  | .refKw => "ref"
  | .returnKw => "return"
  | .selfType => "Self"
  | .selfValue => "self"
  | .staticKw => "static"
  | .structKw => "struct"
  | .superKw => "super"
  | .traitKw => "trait"
  | .trueKw => "true"
  | .typeKw => "type"
  | .unsafeKw => "unsafe"
  | .useKw => "use"
  | .whereKw => "where"
  | .whileKw => "while"

instance : ToString Keyword := ⟨spelling⟩

/-- The reserved word written as `word`.  Case matters. -/
def ofString? (word : String) : Option Keyword :=
  match word with
  | "as" => some .asKw
  | "async" => some .asyncKw
  | "await" => some .awaitKw
  | "break" => some .breakKw
  | "const" => some .constKw
  | "continue" => some .continueKw
  | "crate" => some .crateKw
  | "dyn" => some .dynKw
  | "else" => some .elseKw
  | "enum" => some .enumKw
  | "extern" => some .externKw
  | "false" => some .falseKw
  | "fn" => some .fnKw
  | "for" => some .forKw
  | "if" => some .ifKw
  | "impl" => some .implKw
  | "in" => some .inKw
  | "let" => some .letKw
  | "loop" => some .loopKw
  | "match" => some .matchKw
  | "mod" => some .modKw
  | "move" => some .moveKw
  | "mut" => some .mutKw
  | "pub" => some .pubKw
  | "ref" => some .refKw
  | "return" => some .returnKw
  | "Self" => some .selfType
  | "self" => some .selfValue
  | "static" => some .staticKw
  | "struct" => some .structKw
  | "super" => some .superKw
  | "trait" => some .traitKw
  | "true" => some .trueKw
  | "type" => some .typeKw
  | "unsafe" => some .unsafeKw
  | "use" => some .useKw
  | "where" => some .whereKw
  | "while" => some .whileKw
  | _ => none

/-- The spellings paired with the words they stand for. -/
def table : List (String × Keyword) := all.map fun k => (k.spelling, k)

/-- The reserved word that the table lists under `word`. -/
def lookup (word : String) : Option Keyword := table.lookup word

end Keyword

end StreamLexer
