/-
**Reading a configuration.**

A configuration is written as a JSON object with up to three members, in any order, or as a list of
up to three values, in their order.  What is missing keeps its default.  Other members are passed
over.  A member may occur once; the text is read from the front, and the first cause of failure is
the one reported.

Main definitions:

* `StreamLexer.Config.Member` — the members, by name;
* `StreamLexer.Config.Draft` — what has been read so far;
* `StreamLexer.Config.readFormat`, `StreamLexer.Config.readFlag`, `StreamLexer.Config.readLimit` —
  the three kinds of value;
* `StreamLexer.Config.readObject`, `StreamLexer.Config.readList` — the two forms;
* `StreamLexer.Config.ofInput`, `StreamLexer.Config.ofBytes`, `StreamLexer.Config.ofString`,
  `StreamLexer.Config.ofReader` — **the configuration in a text**.
-/

import StreamLexer.Config.Basic
import StreamLexer.Json.Skip
import StreamLexer.Source.ByteReader

set_option relaxedAutoImplicit false
set_option autoImplicit false

namespace StreamLexer

open Json

namespace Config

/-! ### What was found instead -/

/-- Reads what stands in the text where something else is wanted, its first byte already taken off.
Lists and objects are recognised by their opening. -/
def readFound (first : UInt8) : Reader Found := do
  if first = byte 'n' then do
    literal ['u', 'l', 'l']
    pure .null
  else if first = byte 't' then do
    literal ['r', 'u', 'e']
    pure (.boolean true)
  else if first = byte 'f' then do
    literal ['a', 'l', 's', 'e']
    pure (.boolean false)
  else if first = byte '"' then do
    let cs ← readString
    pure (.string cs)
  else if first = byte '-' || isDigit first then do
    match ← readNumber first with
    | .unsigned n => pure (.integer n.toNat)
    | .negative n => pure (.integer n)
    | .float x => pure (.float x)
  else if first = byte '[' then pure .sequence
  else if first = byte '\x7b' then pure .map
  else throw .expectedValue

/-- Fails because the value in the text is of another kind. -/
def mismatch {α : Type} (expected : String) (first : UInt8) : Reader α := do
  let found ← readFound first
  throw (.invalidType found expected)

/-! ### Values -/

/-- The format with the given name. -/
def formatOfName (cs : List Char) : Reader OutputFormat :=
  match OutputFormat.ofName? (String.ofList cs) with
  | some format => pure format
  | none => throw (.unknownVariant (String.ofList cs) "`text` or `json`")

/-- A null, which is the only value of its kind. -/
def readNull : Reader Unit := do
  match ← nextSolid with
  | none => throw .endInValue
  | some b => if b = byte 'n' then literal ['u', 'l', 'l'] else mismatch "unit" b

/-- A format in the long form, an object whose only key is the name and whose value is null; the
opening brace is already taken off. -/
def readFormatObject : Reader OutputFormat := do
  match ← nextSolid with
  | none => throw .endInObject
  | some b =>
      if b = byte '"' then do
        let cs ← readString
        let format ← formatOfName cs
        colon
        readNull
        match ← nextSolid with
        | none => throw .endInObject
        | some b => if b = byte '\x7d' then pure format else throw .expectedValue
      else if b = byte '\x7d' then throw .expectedValue
      else throw .keyNotString

/-- A format: its name, or the long form. -/
def readFormat : Reader OutputFormat := do
  match ← nextSolid with
  | none => throw .endInValue
  | some b =>
      if b = byte '"' then do
        let cs ← readString
        formatOfName cs
      else if b = byte '\x7b' then readFormatObject
      else throw .expectedValue

/-- A truth value. -/
def readFlag : Reader Bool := do
  match ← nextSolid with
  | none => throw .endInValue
  | some b =>
      if b = byte 't' then do
        literal ['r', 'u', 'e']
        pure true
      else if b = byte 'f' then do
        literal ['a', 'l', 's', 'e']
        pure false
      else mismatch "a boolean" b

/-- What a limit is called in messages. -/
def limitKind : String := "usize"

/-- The limit that a number stands for. -/
def limitOfNumber : Number → Reader (Option UInt64)
  | .unsigned n => pure (some n)
  | .negative n => throw (.invalidValue (.integer n) limitKind)
  | .float x => throw (.invalidType (.float x) limitKind)

/-- A limit, or null for none. -/
def readLimit : Reader (Option UInt64) := do
  match ← nextSolid with
  | none => throw .endInValue
  | some b =>
      if b = byte 'n' then do
        literal ['u', 'l', 'l']
        pure none
      else if b = byte '-' || isDigit b then do
        let n ← readNumber b
        limitOfNumber n
      else mismatch limitKind b

/-! ### Members -/

/-- The members of a configuration. -/
inductive Member where
  | format
  | emitEndOfInput
  | maxTokens
deriving DecidableEq, Repr

namespace Member

/-- The key of a member. -/
def name : Member → String
  | format => "format"
  | emitEndOfInput => "emit_end_of_input"
  | maxTokens => "max_tokens"

/-- The member with the given key. -/
def ofName? : String → Option Member
  | "format" => some format
  | "emit_end_of_input" => some emitEndOfInput
  | "max_tokens" => some maxTokens
  | _ => none

end Member

/-- A configuration of which some members are known. -/
structure Draft where
  format : Option OutputFormat := none
  emitEndOfInput : Option Bool := none
  maxTokens : Option (Option UInt64) := none
deriving DecidableEq, Repr

namespace Draft

/-- Whether a member is known. -/
def has (d : Draft) : Member → Bool
  | .format => d.format.isSome
  | .emitEndOfInput => d.emitEndOfInput.isSome
  | .maxTokens => d.maxTokens.isSome

/-- The configuration, with the default for what is not known. -/
def toConfig (d : Draft) : Config where
  format := d.format.getD .text
  emitEndOfInput := d.emitEndOfInput.getD true
  maxTokens := d.maxTokens.getD none

/-- Reads the value of a member into the draft. -/
def readMember (d : Draft) : Member → Reader Draft
  | .format => do
      let format ← readFormat
      pure { d with format := some format }
  | .emitEndOfInput => do
      let flag ← readFlag
      pure { d with emitEndOfInput := some flag }
  | .maxTokens => do
      let limit ← readLimit
      pure { d with maxTokens := some limit }

end Draft

/-- A key and its value, the opening quote of the key already taken off.  That a member is known
already is noticed before its value is looked at. -/
def readEntry (d : Draft) : Reader Draft := do
  let key ← readString
  match Member.ofName? (String.ofList key) with
  | none => do
      colon
      skipValue
      pure d
  | some m =>
      if d.has m then throw (.duplicateField m.name)
      else do
        colon
        d.readMember m

/-! ### The object form -/

/-- The opening quote of a key that must follow a comma. -/
def keyAfterComma : Reader Unit := do
  match ← nextSolid with
  | none => throw .endInValue
  | some b =>
      if b = byte '"' then pure ()
      else if b = byte '\x7d' then throw .trailingComma
      else throw .keyNotString

/-! Readers of values take bytes off the front, so the members of an object come to an end. -/

theorem shrinks_readFound (first : UInt8) : Shrinks (readFound first) := by
  unfold readFound
  split
  · exact Shrinks.bind (shrinks_literal _) fun _ => Shrinks.pure _
  · split
    · exact Shrinks.bind (shrinks_literal _) fun _ => Shrinks.pure _
    · split
      · exact Shrinks.bind (shrinks_literal _) fun _ => Shrinks.pure _
      · split
        · exact Shrinks.bind shrinks_readString fun _ => Shrinks.pure _
        · split
          · refine Shrinks.bind (shrinks_readNumber _) fun n => ?_
            split <;> exact Shrinks.pure _
          · split
            · exact Shrinks.pure _
            · split
              · exact Shrinks.pure _
              · exact Shrinks.throw _

theorem shrinks_mismatch {α : Type} (expected : String) (first : UInt8) :
    Shrinks (mismatch expected first : Reader α) :=
  Shrinks.bind (shrinks_readFound _) fun _ => Shrinks.throw _

theorem shrinks_formatOfName (cs : List Char) : Shrinks (formatOfName cs) := by
  unfold formatOfName
  split
  · exact Shrinks.pure _
  · exact Shrinks.throw _

theorem shrinks_readNull : Shrinks readNull := by
  refine Shrinks.bind shrinks_nextSolid fun o => ?_
  split
  · exact Shrinks.throw _
  · split
    · exact shrinks_literal _
    · exact shrinks_mismatch _ _

theorem shrinks_readFormatObject : Shrinks readFormatObject := by
  refine Shrinks.bind shrinks_nextSolid fun o => ?_
  split
  · exact Shrinks.throw _
  · split
    · refine Shrinks.bind shrinks_readString fun _ => ?_
      refine Shrinks.bind (shrinks_formatOfName _) fun _ => ?_
      refine Shrinks.bind shrinks_colon fun _ => ?_
      refine Shrinks.bind shrinks_readNull fun _ => ?_
      refine Shrinks.bind shrinks_nextSolid fun o => ?_
      split
      · exact Shrinks.throw _
      · split
        · exact Shrinks.pure _
        · exact Shrinks.throw _
    · split
      · exact Shrinks.throw _
      · exact Shrinks.throw _

theorem shrinks_readFormat : Shrinks readFormat := by
  refine Shrinks.bind shrinks_nextSolid fun o => ?_
  split
  · exact Shrinks.throw _
  · split
    · exact Shrinks.bind shrinks_readString fun _ => shrinks_formatOfName _
    · split
      · exact shrinks_readFormatObject
      · exact Shrinks.throw _

theorem shrinks_readFlag : Shrinks readFlag := by
  refine Shrinks.bind shrinks_nextSolid fun o => ?_
  split
  · exact Shrinks.throw _
  · split
    · exact Shrinks.bind (shrinks_literal _) fun _ => Shrinks.pure _
    · split
      · exact Shrinks.bind (shrinks_literal _) fun _ => Shrinks.pure _
      · exact shrinks_mismatch _ _

theorem shrinks_limitOfNumber (n : Number) : Shrinks (limitOfNumber n) := by
  cases n with
  | unsigned n => exact Shrinks.pure _
  | negative n => exact Shrinks.throw _
  | float x => exact Shrinks.throw _

theorem shrinks_readLimit : Shrinks readLimit := by
  refine Shrinks.bind shrinks_nextSolid fun o => ?_
  split
  · exact Shrinks.throw _
  · split
    · exact Shrinks.bind (shrinks_literal _) fun _ => Shrinks.pure _
    · split
      · exact Shrinks.bind (shrinks_readNumber _) fun _ => shrinks_limitOfNumber _
      · exact shrinks_mismatch _ _

theorem shrinks_readMember (d : Draft) (m : Member) : Shrinks (d.readMember m) := by
  cases m with
  | format => exact Shrinks.bind shrinks_readFormat fun _ => Shrinks.pure _
  | emitEndOfInput => exact Shrinks.bind shrinks_readFlag fun _ => Shrinks.pure _
  | maxTokens => exact Shrinks.bind shrinks_readLimit fun _ => Shrinks.pure _

theorem shrinks_readEntry (d : Draft) : Shrinks (readEntry d) := by
  refine Shrinks.bind shrinks_readString fun key => ?_
  split
  · refine Shrinks.bind shrinks_colon fun _ => ?_
    exact Shrinks.bind shrinks_skipValue fun _ => Shrinks.pure _
  · split
    · exact Shrinks.throw _
    · exact Shrinks.bind shrinks_colon fun _ => shrinks_readMember _ _

theorem shrinks_keyAfterComma : Shrinks keyAfterComma := by
  refine Shrinks.bind shrinks_nextSolid fun o => ?_
  split
  · exact Shrinks.throw _
  · split
    · exact Shrinks.pure _
    · split
      · exact Shrinks.throw _
      · exact Shrinks.throw _

/-- The members after one that has been read, up to the closing brace. -/
def readMoreEntries (d : Draft) (s : Input) : Except ReadError (Draft × Input) :=
  match _hs : nextSolid s with
  | .error e => .error e
  | .ok (none, _) => .error .endInObject
  | .ok (some b, rest) =>
      if b = byte '\x7d' then .ok (d, rest)
      else if b = byte ',' then
        match _he : (keyAfterComma >>= fun _ => readEntry d) rest with
        | .error e => .error e
        | .ok (d', rest') => readMoreEntries d' rest'
      else .error .expectedObjectCommaOrEnd
termination_by s.bytes.length
decreasing_by
  exact Nat.lt_of_le_of_lt
    (Shrinks.bind shrinks_keyAfterComma (fun _ => shrinks_readEntry d) _he).length_le
    (length_lt_of_nextSolid _hs)

/-- **The members of an object**, its opening brace already taken off. -/
def readObject : Reader Draft := do
  match ← nextSolid with
  | none => throw .endInObject
  | some b =>
      if b = byte '\x7d' then pure {}
      else if b = byte '"' then do
        let d ← readEntry {}
        readMoreEntries d
      else throw .keyNotString

/-! ### The list form -/

/-- Whether a list goes on with a value: at once after its opening, and after a comma later.  The
closing bracket is left where it is. -/
def hasElement (first : Bool) : Reader Bool := do
  match ← peekSolid with
  | none => throw .endInList
  | some b =>
      if b = byte ']' then pure false
      else if first then pure true
      else if b = byte ',' then do
        let _ ← nextByte
        match ← peekSolid with
        | none => throw .endInValue
        | some b => if b = byte ']' then throw .trailingComma else pure true
      else throw .expectedListCommaOrEnd

/-- The closing bracket after as many values as are wanted. -/
def readListEnd : Reader Unit := do
  match ← nextSolid with
  | none => throw .endInList
  | some b =>
      if b = byte ']' then pure ()
      else if b = byte ',' then
        match ← peekSolid with
        | some b => if b = byte ']' then throw .trailingComma else throw .trailingCharacters
        | none => throw .trailingCharacters
      else throw .trailingCharacters

/-- Reads values for the given members, in order, as far as the list goes. -/
def readElements (first : Bool) : List Member → Draft → Reader Draft
  | [], d => pure d
  | m :: ms, d => do
      if ← hasElement first then do
        let d' ← d.readMember m
        readElements false ms d'
      else pure d

/-- **The values of a list**, its opening bracket already taken off. -/
def readList : Reader Draft := do
  let d ← readElements true [.format, .emitEndOfInput, .maxTokens] {}
  readListEnd
  pure d

/-! ### The whole text -/

/-- The end of the text. -/
def readEnd : Reader Unit := do
  match ← nextSolid with
  | none => pure ()
  | some _ => throw .trailingCharacters

/-- A configuration in either form. -/
def read : Reader Config := do
  match ← nextSolid with
  | none => throw .endInValue
  | some b =>
      if b = byte '\x7b' then do
        let d ← readObject
        pure d.toConfig
      else if b = byte '[' then do
        let d ← readList
        pure d.toConfig
      else mismatch "struct LexerConfig" b

/-- **The configuration in a text.**  After it only blanks may follow. -/
def ofInput (s : Input) : Except ReadError Config := (do
  let config ← read
  readEnd
  pure config : Reader Config).run' s

/-- The configuration in a text, given as bytes. -/
def ofBytes (bytes : Bytes) : Except ReadError Config := ofInput ⟨bytes, none⟩

/-- The configuration in a text. -/
def ofString (s : String) : Except ReadError Config := ofBytes (encodeUtf8 s.toList)

/-- The configuration in the text that a reader delivers.  Where the reader fails, there is no
end of the text to be found, so a failing reader delivers no configuration. -/
def ofReader (r : ByteReader) : Except ReadError Config :=
  ofInput ⟨r.contents.1, r.contents.2.map ReadFailure.message⟩

end Config

end StreamLexer
