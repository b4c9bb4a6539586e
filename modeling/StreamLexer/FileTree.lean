/-
**File trees.**

A file tree says which files and directories there are under a root, and which directory is the
working directory.  A path is followed name by name: from the root if it starts with a slash, else
from the working directory.  Every name but the last must be that of a directory, and so must the
last if a slash follows it.  A directory can be opened like a file, but reading it fails.

Main definitions:

* `StreamLexer.FileTree` — the files and directories, by the names on the way to them;
* `StreamLexer.OpenError` — why a path leads nowhere;
* `StreamLexer.FileTree.follow` — the place that names lead to;
* `StreamLexer.FileTree.reader` — **a reader of what a path leads to**.
-/

import StreamLexer.Source.ByteReader
import StreamLexer.Text.Utf8

set_option relaxedAutoImplicit false
set_option autoImplicit false

namespace StreamLexer

/-- What a place in a file tree holds. -/
inductive FileTree.Entry where
  | file (bytes : List UInt8)
  | directory
deriving DecidableEq, Repr

/-- A file tree.  A place is given by the names on the way to it from the root. -/
structure FileTree where
  entries : List (List String × FileTree.Entry)
  workingDirectory : List String := []
deriving DecidableEq, Repr

/-- Why a path leads nowhere. -/
inductive OpenError where
  | missing
  | notDirectory
  | nameTooLong
  /-- The path holds a null character, which no path may. -/
  | nullInPath
deriving DecidableEq, Repr

/-- How a system reports it. -/
def OpenError.failure : OpenError → ReadFailure
  | missing => ⟨"NotFound", "No such file or directory (os error 2)"⟩
  | notDirectory => ⟨"NotADirectory", "Not a directory (os error 20)"⟩
  | nameTooLong => ⟨"InvalidFilename", "File name too long (os error 36)"⟩
  | nullInPath => ⟨"InvalidInput", "file name contained an unexpected NUL byte"⟩

namespace FileTree

/-- The failure of reading a directory. -/
def directoryFailure : ReadFailure := ⟨"IsADirectory", "Is a directory (os error 21)"⟩

/-- What a place holds.  The root is a directory, and so is each place on the way to another. -/
def entry? (tree : FileTree) (place : List String) : Option Entry :=
  match tree.entries.lookup place with
  | some e => some e
  | none =>
      if place.isEmpty || tree.entries.any (fun e => place.isPrefixOf e.1) then some .directory
      else none

/-- The number of bytes in a text. -/
def byteCount (s : String) : Nat := (encodeUtf8 s.toList).length

/-- The greatest number of bytes in a name. -/
def longestName : Nat := 255

/-- The greatest number of bytes in a path. -/
def longestPath : Nat := 4095

/-- Follows names from a place that holds an entry.  An empty name and a point stay there, two
points lead one step back. -/
def follow (tree : FileTree) (place : List String) (entry : Entry) :
    List String → Except OpenError Entry
  | [] => .ok entry
  | name :: names =>
      -- Only a directory holds further names, the empty one after a last slash included.
      if entry ≠ .directory then .error .notDirectory
      else if name = "" ∨ name = "." then follow tree place entry names
      else if name = ".." then follow tree place.dropLast .directory names
      else if longestName < byteCount name then .error .nameTooLong
      else
        match tree.entry? (place ++ [name]) with
        | none => .error .missing
        | some e => follow tree (place ++ [name]) e names

/-- What a path leads to. -/
def resolve (tree : FileTree) (path : String) : Except OpenError Entry :=
  if path.toList.contains '\x00' then .error .nullInPath
  else if longestPath < byteCount path then .error .nameTooLong
  else if path = "" then .error .missing
  else
    let start := if path.toList.head? = some '/' then [] else tree.workingDirectory
    follow tree start .directory (path.splitOn "/")

/-- **A reader of what a path leads to.** -/
def reader (tree : FileTree) (path : String) : Except OpenError ByteReader :=
  match tree.resolve path with
  | .error e => .error e
  | .ok (.file bytes) => .ok (.ofBytes bytes)
  | .ok .directory => .ok (.failing directoryFailure)

end FileTree

end StreamLexer
