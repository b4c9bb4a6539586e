/-
**A decoder by its fields.**

Beside its reader a decoder holds a byte that is to be read again, or the failure that ended the
data, or the mark that they have ended.  Here each of the three has a field of its own, and every
operation changes the fields one by one.  Nothing in the form of such a state keeps a byte from
pending after the end, or a failure from being stored before it; that no use of a decoder comes to
that is a law, and it holds because the fields are at every point those of a decoder.

Main definitions:

* `StreamLexer.DecoderFields` — **the fields**, and `StreamLexer.DecoderFields.next`,
  `StreamLexer.DecoderFields.takeFailure`, the operations on them;
* `StreamLexer.Utf8Decoder.fields` — the fields of a decoder;
* `StreamLexer.Request`, `StreamLexer.Reply`, `StreamLexer.askAll` — what is asked of a decoder, and
  **requests in any order**.

Main results:

* `StreamLexer.Utf8Decoder.fields_next`, `StreamLexer.Utf8Decoder.fields_takeFailure` — **the fields
  keep in step with the decoder**;
* `StreamLexer.Utf8Decoder.askAll_fields` — the fields keep in step over any requests;
* `StreamLexer.DecoderFields.AtRest.reader_askAll` — after the end the reader is left alone.
-/

import StreamLexer.Source.Utf8Decoder

set_option relaxedAutoImplicit false
set_option autoImplicit false

namespace StreamLexer

/-! ### Operations on fields -/

/-- **A decoder by its fields.** -/
structure DecoderFields where
  reader : ByteReader
  /-- A byte that was read and starts the next character. -/
  pending : Option UInt8 := none
  /-- The failure that ended the data, until it is taken. -/
  failure : Option ReadFailure := none
  /-- The data have ended. -/
  exhausted : Bool := false
deriving DecidableEq, Repr

namespace DecoderFields

/-- The fields before the first request. -/
def ofReader (r : ByteReader) : DecoderFields := { reader := r }

/-- The next byte: the pending one, or the next one delivered. -/
def readByte (s : DecoderFields) : Option UInt8 × DecoderFields :=
  match s.pending with
  | some b => (some b, { s with pending := none })
  | none =>
      if s.exhausted then (none, s)
      else
        match s.reader.deliver with
        | (.byte b, r) => (some b, { s with reader := r })
        | (.ended none, r) => (none, { s with reader := r, exhausted := true })
        | (.ended (some f), r) =>
            (none, { s with reader := r, failure := some f, exhausted := true })

/-- Reads the bytes owed after a lead byte, adding six bits to `bits` for each. -/
def finish (bits : Nat) : List ByteRange → DecoderFields → Char × DecoderFields
  | [], s => (Char.ofNat bits, s)
  | range :: owed, s =>
      match s.readByte with
      | (none, s') => (replacementCharacter, s')
      | (some b, s') =>
          if range.contains b then finish (64 * bits + (b.toNat - 0x80)) owed s'
          else (replacementCharacter, { s' with pending := some b })

/-- **The next character.** -/
def next (s : DecoderFields) : Option Char × DecoderFields :=
  match s.readByte with
  | (none, s') => (none, s')
  | (some b, s') =>
      match Lead.ofByte b with
      | .single => (some (Char.ofNat b.toNat), s')
      | .illFormed => (some replacementCharacter, s')
      | .opening bits owed =>
          let (c, s'') := finish bits owed s'
          (some c, s'')

/-- The failure that is stored, if one is; then none is. -/
def takeFailure (s : DecoderFields) : Option ReadFailure × DecoderFields :=
  (s.failure, { s with failure := none })

end DecoderFields

/-! ### The fields of a decoder -/

namespace Utf8Decoder

/-- **The fields of a decoder.** -/
def fields (d : Utf8Decoder) : DecoderFields :=
  match d.feed with
  | .flowing => ⟨d.reader, none, none, false⟩
  | .held b => ⟨d.reader, some b, none, false⟩
  | .ended failure => ⟨d.reader, none, failure, true⟩

theorem fields_readByte (d : Utf8Decoder) :
    d.fields.readByte = (d.readByte.1, d.readByte.2.fields) := by
  obtain ⟨reader, feed⟩ := d
  cases feed with
  | held b => rfl
  | ended failure => rfl
  | flowing =>
      rcases hd : reader.deliver with ⟨delivery, r⟩
      cases delivery with
      | byte b => simp [fields, readByte, DecoderFields.readByte, hd]
      | ended failure =>
          cases failure with
          | none => simp [fields, readByte, DecoderFields.readByte, hd]
          | some f => simp [fields, readByte, DecoderFields.readByte, hd]

theorem fields_finish (bits : Nat) (owed : List ByteRange) (d : Utf8Decoder) :
    d.fields.finish bits owed = ((finish bits owed d).1, (finish bits owed d).2.fields) := by
  induction owed generalizing bits d with
  | nil => rfl
  | cons range owed ih =>
      have hfields := d.fields_readByte
      rcases hr : d.readByte with ⟨o, d'⟩
      rw [hr] at hfields
      cases o with
      | none => simp only [DecoderFields.finish, finish, hfields, hr]
      | some b =>
          by_cases hc : range.contains b = true
          · simp only [DecoderFields.finish, finish, hfields, hr, hc, if_true, ih]
          · -- after a byte has been read nothing else is held
            have hflow : d'.fields = ⟨d'.reader, none, none, false⟩ := by
              simp only [fields, (remaining_readByte_lt hr).2]
            simp only [DecoderFields.finish, finish, hfields, hr, hc, Bool.false_eq_true, if_false,
              hflow]
            rfl

/-- **A character is taken from the fields** as it is from the decoder. -/
theorem fields_next (d : Utf8Decoder) : d.fields.next = (d.next.1, d.next.2.fields) := by
  have hfields := d.fields_readByte
  rcases hr : d.readByte with ⟨o, d'⟩
  rw [hr] at hfields
  cases o with
  | none => simp only [DecoderFields.next, next, hfields, hr]
  | some b =>
      cases hl : Lead.ofByte b with
      | single => simp only [DecoderFields.next, next, hfields, hr, hl]
      | illFormed => simp only [DecoderFields.next, next, hfields, hr, hl]
      | opening bits owed => simp only [DecoderFields.next, next, hfields, hr, hl, fields_finish]

/-- **The failure is taken from the fields** as it is from the decoder. -/
theorem fields_takeFailure (d : Utf8Decoder) :
    d.fields.takeFailure = (d.takeFailure.1, d.takeFailure.2.fields) := by
  obtain ⟨reader, feed⟩ := d
  cases feed with
  | flowing => rfl
  | held b => rfl
  | ended failure => rfl

end Utf8Decoder

/-! ### Requests in any order -/

/-- What a decoder is asked for. -/
inductive Request where
  | character
  | failure
deriving DecidableEq, Repr

/-- What is given for a request. -/
inductive Reply where
  | character (c : Option Char)
  | failure (f : Option ReadFailure)
deriving DecidableEq, Repr

/-- The character that a reply gives. -/
def Reply.character? : Reply → Option Char
  | character c => c
  | failure _ => none

section

variable {σ τ : Type}

/-- One request, of a state with these two operations. -/
def Request.ask (next : σ → Option Char × σ) (takeFailure : σ → Option ReadFailure × σ) (s : σ) :
    Request → Reply × σ
  | character => (.character (next s).1, (next s).2)
  | failure => (.failure (takeFailure s).1, (takeFailure s).2)

/-- **Requests one after another**: the replies, and the state after them. -/
def askAll (ask : σ → Request → Reply × σ) : List Request → σ → List Reply × σ
  | [], s => ([], s)
  | request :: requests, s =>
      ((ask s request).1 :: (askAll ask requests (ask s request).2).1,
        (askAll ask requests (ask s request).2).2)

/-- States that keep in step over one request do so over all. -/
theorem askAll_map {ask : σ → Request → Reply × σ} {ask' : τ → Request → Reply × τ} {f : σ → τ}
    (h : ∀ s request, ask' (f s) request = ((ask s request).1, f (ask s request).2))
    (requests : List Request) (s : σ) :
    askAll ask' requests (f s) = ((askAll ask requests s).1, f (askAll ask requests s).2) := by
  induction requests generalizing s with
  | nil => rfl
  | cons request requests ih => simp only [askAll, h, ih]

end

/-- One request to a decoder. -/
def Utf8Decoder.ask : Utf8Decoder → Request → Reply × Utf8Decoder := Request.ask next takeFailure

/-- One request to the fields of a decoder. -/
def DecoderFields.ask : DecoderFields → Request → Reply × DecoderFields :=
  Request.ask next takeFailure

theorem Utf8Decoder.fields_ask (d : Utf8Decoder) (request : Request) :
    d.fields.ask request = ((d.ask request).1, (d.ask request).2.fields) := by
  cases request with
  | character => simp only [DecoderFields.ask, ask, Request.ask, fields_next]
  | failure => simp only [DecoderFields.ask, ask, Request.ask, fields_takeFailure]

/-- **The fields keep in step with a decoder over any requests.** -/
theorem Utf8Decoder.askAll_fields (requests : List Request) (d : Utf8Decoder) :
    askAll DecoderFields.ask requests d.fields =
      ((askAll ask requests d).1, (askAll ask requests d).2.fields) :=
  askAll_map fields_ask requests d

/-! ### After the end -/

namespace DecoderFields

variable {s : DecoderFields}

/-- The data have ended, and nothing is pending. -/
def AtRest (s : DecoderFields) : Prop := s.exhausted = true ∧ s.pending = none

/-- **At rest a request changes nothing** but that the failure is gone once it is taken. -/
theorem AtRest.ask (h : s.AtRest) (request : Request) :
    (s.ask request).2.AtRest ∧ (s.ask request).2.reader = s.reader ∧
      (s.ask request).1.character? = none := by
  obtain ⟨hexhausted, hpending⟩ := h
  cases request with
  | character =>
      have hread : s.readByte = (none, s) := by
        simp only [readByte, hpending, hexhausted, if_true]
      have hnext : s.next = (none, s) := by
        simp only [next, hread]
      have hask : s.ask .character = (.character none, s) := by
        simp only [DecoderFields.ask, Request.ask, hnext]
      rw [hask]
      exact ⟨⟨hexhausted, hpending⟩, rfl, rfl⟩
  | failure => exact ⟨⟨hexhausted, hpending⟩, rfl, rfl⟩

/-- **After the end the reader is left alone**, and no more characters come. -/
theorem AtRest.reader_askAll (h : s.AtRest) (requests : List Request) :
    (askAll DecoderFields.ask requests s).2.reader = s.reader ∧
      ∀ reply ∈ (askAll DecoderFields.ask requests s).1, reply.character? = none := by
  induction requests generalizing s with
  | nil => exact ⟨rfl, fun _ hreply => absurd hreply List.not_mem_nil⟩
  | cons request requests ih =>
      obtain ⟨hrest, hreader, hnone⟩ := h.ask request
      obtain ⟨hreader', hnone'⟩ := ih hrest
      exact ⟨hreader'.trans hreader, List.forall_mem_cons.2 ⟨hnone, hnone'⟩⟩

end DecoderFields

end StreamLexer
