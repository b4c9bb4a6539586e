/-
**The accounts of a decoder.**

Whatever its reader answers and in whatever order it is asked for characters and for its failure, a
decoder accounts for every byte: those that were delivered are the bytes of the characters that were
returned, in order, and the one that is pending, if one is.  A byte is pending when it has cut the
last character short, and at no other time; so a character that is whole is returned without a look
at what comes after it.  An answer that ends the data is the last that the reader is asked for, and
what is returned for it is none, or the one U+FFFD of a character that the end has cut short.

Main definitions:

* `StreamLexer.ByteReader.answered` — the answers to so many requests;
* `StreamLexer.DecoderFields.Consistent` — **the fields and the answers so far**;
* `StreamLexer.DecoderFields.Accounts` — **the bytes so far**, by the units that were returned and
  those that are left;
* `StreamLexer.Utf8Decoder.Keeps` — the same of a decoder, as one request preserves it.

Main results:

* `StreamLexer.Utf8Decoder.Keeps.next`, `StreamLexer.Utf8Decoder.Keeps.takeFailure` — what a request
  preserves, and `StreamLexer.Utf8Decoder.Keeps.askAll`, what any requests do;
* `StreamLexer.decoder_accounts` — **a decoder accounts for every byte**.
-/

import StreamLexer.Proofs.DecoderFields
import StreamLexer.Proofs.HeldBytes
import Mathlib.Data.List.TakeWhile

set_option relaxedAutoImplicit false
set_option autoImplicit false

namespace StreamLexer

/-! ### The answers so far -/

theorem ReadAnswer.byte?_of_goesOn {a : ReadAnswer} (h : a.goesOn = false) : a.byte? = none := by
  cases a with
  | byte b => cases h
  | interrupted => cases h
  | finished => rfl
  | failed f => rfl

namespace ByteReader

/-- **The answers to so many requests**: those that the reader has, and after the last of them that
the data are finished. -/
def answered : List ReadAnswer → Nat → List ReadAnswer
  | _, 0 => []
  | [], k + 1 => .finished :: answered [] k
  | a :: as, k + 1 => a :: answered as k

theorem answered_length_append (passed left : List ReadAnswer) :
    answered (passed ++ left) passed.length = passed := by
  induction passed with
  | nil => rfl
  | cons a passed ih => rw [List.cons_append, List.length_cons, answered, ih]

/-- **The answers up to the end of the data**: those that go on, and the one that does not; a
failure is that one. -/
theorem exists_answered_end (answers : List ReadAnswer) :
    ∃ last, answered answers (requestsBeforeEnd answers + 1) =
        answers.takeWhile ReadAnswer.goesOn ++ [last] ∧
      last.goesOn = false ∧ ∀ f, (contentsFrom answers).2 = some f → last = .failed f := by
  induction answers with
  | nil => exact ⟨.finished, rfl, rfl, fun _ h => nomatch h⟩
  | cons a as ih =>
      obtain ⟨last, hanswered, hlast, hfailure⟩ := ih
      cases a with
      | byte b => exact ⟨last, congrArg (_ :: ·) hanswered, hlast, hfailure⟩
      | interrupted => exact ⟨last, congrArg (_ :: ·) hanswered, hlast, hfailure⟩
      | finished => exact ⟨.finished, rfl, rfl, fun _ h => nomatch h⟩
      | failed f => exact ⟨.failed f, rfl, rfl, fun _ h => congrArg _ (Option.some.inj h)⟩

theorem filterMap_takeWhile_goesOn (answers : List ReadAnswer) :
    (answers.takeWhile ReadAnswer.goesOn).filterMap ReadAnswer.byte? =
      (contentsFrom answers).1 := by
  induction answers with
  | nil => rfl
  | cons a as ih =>
      cases a with
      | byte b => exact congrArg (b :: ·) ih
      | interrupted => exact ih
      | finished => rfl
      | failed f => rfl

end ByteReader

open ByteReader

/-! ### What a request preserves -/

/-- The last unit is incomplete. -/
def LastIncomplete (taken : List DecodedUnit) : Prop :=
  ∃ u, taken.getLast? = some u ∧ IsIncomplete u.part

theorem lastIncomplete_append {taken : List DecodedUnit} {u : DecodedUnit} :
    LastIncomplete (taken ++ [u]) ↔ IsIncomplete u.part := by
  simp [LastIncomplete]

namespace Utf8Decoder

variable {answers : List ReadAnswer} {replies : List Reply} {taken left : List DecodedUnit}
variable {d : Utf8Decoder}

/-- **A decoder in order**: its replies have been the characters of the units taken, and its bytes
are those of the units left; it holds a byte back where the last unit is cut short and there is
more, and it has found the end where the last unit is cut short and there is no more, or when it has
given none. -/
structure Keeps (answers : List ReadAnswer) (replies : List Reply)
    (taken left : List DecodedUnit) (d : Utf8Decoder) : Prop where
  tracks : ∃ due, Tracks answers due d ∧ ∀ f, due = some f → (contentsFrom answers).2 = some f
  division : Division (contentsFrom answers).1 (taken ++ left)
  division_bytes : Division d.bytes left
  returned : replies.filterMap Reply.character? = taken.map DecodedUnit.character
  held_iff : (∃ b, d.feed = .held b) ↔ d.bytes ≠ [] ∧ LastIncomplete taken
  hasEnded_iff : d.HasEnded ↔ Reply.character none ∈ replies ∨ d.bytes = [] ∧ LastIncomplete taken

namespace Keeps

/-- Before the first request nothing has been taken. -/
theorem start (answers : List ReadAnswer) :
    ∃ units, Keeps answers [] [] units (.ofReader ⟨answers, 0⟩) := by
  obtain ⟨units, hunits, _⟩ := Division.existsUnique (contentsFrom answers).1
  refine ⟨units, ⟨_, .start answers, fun _ => id⟩, hunits, hunits, rfl, ?_, ?_⟩
  · simp [LastIncomplete, ofReader]
  · simp [LastIncomplete, ofReader, HasEnded]

/-- **A request for a character** takes the next unit, if there is one. -/
theorem next (h : Keeps answers replies taken left d) :
    ∃ taken' left', Keeps answers (replies ++ [.character d.next.1]) taken' left' d.next.2 := by
  obtain ⟨due, htracks, hdue⟩ := h.tracks
  have htracks' := htracks.next
  rcases hn : d.next with ⟨o, d'⟩
  rw [hn] at htracks'
  cases o with
  | none =>
      obtain ⟨hbytes, hbytes'⟩ := bytes_of_next_none hn
      have hended : d'.HasEnded := hasEnded_of_next_none hn
      refine ⟨taken, left, ⟨due, htracks', hdue⟩, h.division, ?_, ?_, ?_, ?_⟩
      · rw [hbytes', ← hbytes]
        exact h.division_bytes
      · rw [List.filterMap_append, h.returned]
        simp [Reply.character?]
      · refine iff_of_false (fun hheld => ?_) fun hmore => hmore.1 hbytes'
        exact (Utf8Decoder.held_iff.1 hheld).2 hbytes'
      · exact iff_of_true hended (Or.inl (by simp))
  | some c =>
      obtain ⟨part, hbytes, hunit⟩ := decodesTo_of_next hn
      obtain ⟨others, hothers, _⟩ := Division.existsUnique d'.bytes
      obtain rfl : left = ⟨part, c⟩ :: others := by
        have hleft := h.division_bytes
        rw [hbytes] at hleft
        exact hleft.unique (.cons hunit hothers)
      -- an earlier answer of none would have left no bytes for a character
      have hno : Reply.character none ∉ replies := by
        intro hmem
        have hnil := (Utf8Decoder.hasEnded_iff.1 (h.hasEnded_iff.2 (Or.inl hmem))).2
        rw [hnil] at hbytes
        exact hunit.ne_nil (List.append_eq_nil_iff.1 hbytes.symm).1
      refine ⟨taken ++ [⟨part, c⟩], others, ⟨due, htracks', hdue⟩, ?_, hothers, ?_, ?_, ?_⟩
      · rw [List.append_assoc]
        exact h.division
      · rw [List.filterMap_append, h.returned, List.map_append]
        rfl
      · rw [lastIncomplete_append]
        exact held_next_iff hn hbytes
      · rw [lastIncomplete_append, hasEnded_next_iff hn hbytes]
        simp [hno]

/-- **A request for the failure** takes nothing else. -/
theorem takeFailure (h : Keeps answers replies taken left d) :
    Keeps answers (replies ++ [.failure d.takeFailure.1]) taken left d.takeFailure.2 := by
  obtain ⟨due, htracks, hdue⟩ := h.tracks
  obtain ⟨due', htracks', hbytes, _, hdue'⟩ := htracks.takeFailure
  have hheld : (∃ b, d.takeFailure.2.feed = .held b) ↔ ∃ b, d.feed = .held b := by
    obtain ⟨reader, feed⟩ := d
    cases feed <;> simp [Utf8Decoder.takeFailure]
  have hended : d.takeFailure.2.HasEnded ↔ d.HasEnded := by
    obtain ⟨reader, feed⟩ := d
    cases feed <;> simp [Utf8Decoder.takeFailure, HasEnded]
  refine ⟨⟨due', htracks', fun f hf => hdue f ((hdue' f).1 hf).1⟩, h.division, ?_, ?_, ?_, ?_⟩
  · rw [hbytes]
    exact h.division_bytes
  · rw [List.filterMap_append, h.returned]
    simp [Reply.character?]
  · rw [hheld, hbytes]
    exact h.held_iff
  · rw [hended, hbytes, h.hasEnded_iff]
    simp

/-- **What one request preserves.** -/
theorem ask (h : Keeps answers replies taken left d) (request : Request) :
    ∃ taken' left', Keeps answers (replies ++ [(d.ask request).1]) taken' left'
      (d.ask request).2 := by
  cases request with
  | character => exact h.next
  | failure => exact ⟨taken, left, h.takeFailure⟩

/-- **What any requests preserve.** -/
theorem askAll (h : Keeps answers replies taken left d) (requests : List Request) :
    ∃ taken' left', Keeps answers (replies ++ (askAll Utf8Decoder.ask requests d).1) taken' left'
      (askAll Utf8Decoder.ask requests d).2 := by
  induction requests generalizing replies taken left d with
  | nil => exact ⟨taken, left, by simpa [StreamLexer.askAll] using h⟩
  | cons request requests ih =>
      obtain ⟨taken', left', h'⟩ := h.ask request
      obtain ⟨taken'', left'', h''⟩ := ih h'
      refine ⟨taken'', left'', ?_⟩
      rw [List.append_assoc] at h''
      exact h''

end Keeps

end Utf8Decoder

/-! ### What it says of the fields -/

namespace DecoderFields

/-- The bytes that are still to be decoded. -/
def unread (s : DecoderFields) : List UInt8 :=
  if s.exhausted then [] else s.pending.toList ++ s.reader.contents.1

/-- **The fields and the answers so far.** -/
structure Consistent (answers : List ReadAnswer) (s : DecoderFields) : Prop where
  /-- A byte is pending only before the end. -/
  not_exhausted_of_pending : ∀ b, s.pending = some b → s.exhausted = false
  /-- A failure is stored only after the end, and it is the answer that was the end. -/
  exhausted_of_failure : ∀ f, s.failure = some f → s.exhausted = true ∧
    (answered answers s.reader.requests).getLast? = some (.failed f)
  /-- The end has come when an answer was one. -/
  exhausted_iff : s.exhausted = true ↔
    ∃ a ∈ answered answers s.reader.requests, a.goesOn = false
  /-- No answer was asked for after one that was the end. -/
  goesOn_dropLast : ∀ a ∈ (answered answers s.reader.requests).dropLast, a.goesOn = true
  /-- Before the end the last answer was a byte. -/
  byte_getLast : s.exhausted = false →
    ∀ a ∈ (answered answers s.reader.requests).getLast?, ∃ b, a = .byte b
  /-- The reader has still to give what it has not given. -/
  answers_eq : s.reader.answers = answers.drop s.reader.requests

/-- **The bytes so far**, by the units that were returned and those that are left. -/
structure Accounts (answers : List ReadAnswer) (replies : List Reply)
    (taken left : List DecodedUnit) (s : DecoderFields) : Prop where
  division : Division (contentsFrom answers).1 (taken ++ left)
  /-- The characters that were returned are those of the units taken. -/
  returned : replies.filterMap Reply.character? = taken.map DecodedUnit.character
  /-- The bytes that were delivered are those of the units taken, and the one that is pending. -/
  delivered : (answered answers s.reader.requests).filterMap ReadAnswer.byte? =
    taken.flatMap DecodedUnit.part ++ s.pending.toList
  /-- The bytes that are still to be decoded, the pending one first, are those of the units left. -/
  unread : s.unread = left.flatMap DecodedUnit.part
  /-- A byte is pending when it comes next and has cut the last unit short. -/
  pending_iff : ∀ b, s.pending = some b ↔
    s.unread.head? = some b ∧ ∃ u, taken.getLast? = some u ∧ u.CutShortBy b
  /-- The end has come when none was returned, or with the last unit if it is cut short by it. -/
  exhausted_iff : s.exhausted = true ↔
    Reply.character none ∈ replies ∨ left = [] ∧ LastIncomplete taken

end DecoderFields

namespace Utf8Decoder

variable {answers : List ReadAnswer} {replies : List Reply} {taken left : List DecodedUnit}
variable {d : Utf8Decoder}

theorem fields_reader (d : Utf8Decoder) : d.fields.reader = d.reader := by
  obtain ⟨reader, feed⟩ := d
  cases feed <;> rfl

theorem fields_pending_iff {b : UInt8} : d.fields.pending = some b ↔ d.feed = .held b := by
  obtain ⟨reader, feed⟩ := d
  cases feed <;> simp [fields]

theorem fields_exhausted_iff : d.fields.exhausted = true ↔ d.HasEnded := by
  obtain ⟨reader, feed⟩ := d
  cases feed <;> simp [fields, HasEnded]

theorem fields_unread (d : Utf8Decoder) : d.fields.unread = d.bytes := by
  obtain ⟨reader, feed⟩ := d
  cases feed <;> rfl

end Utf8Decoder

namespace Tracks

variable {answers : List ReadAnswer} {due : Option ReadFailure} {d : Utf8Decoder}

/-- **The fields of a decoder and the answers so far.** -/
theorem consistent (h : Tracks answers due d)
    (hdue : ∀ f, due = some f → (contentsFrom answers).2 = some f) :
    d.fields.Consistent answers := by
  cases h with
  | @running passed left feed happ hpassed hfeed _ =>
      have hanswered : answered answers passed.length = passed := by
        rw [happ, answered_length_append]
      have hleft : left = answers.drop passed.length := by
        rw [happ, List.drop_left]
      have hend : ¬ ∃ a ∈ passed, a.goesOn = false := by
        rintro ⟨a, ha, hfalse⟩
        exact absurd (hpassed a ha) (by simp [hfalse])
      have hdrop : ∀ a ∈ passed.dropLast, a.goesOn = true :=
        fun a ha => hpassed a (List.dropLast_subset passed ha)
      cases feed with
      | flowing =>
          refine ⟨fun _ hb => ?_, fun _ hf => ?_, ?_, ?_, ?_, hleft⟩
          · cases hb
          · cases hf
          · simpa [Utf8Decoder.fields, hanswered] using hend
          · simpa [Utf8Decoder.fields, hanswered] using hdrop
          · intro _
            simpa [Utf8Decoder.fields, hanswered, Feed.AgreesWith] using hfeed
      | held b =>
          refine ⟨fun _ _ => rfl, fun _ hf => ?_, ?_, ?_, ?_, hleft⟩
          · cases hf
          · simpa [Utf8Decoder.fields, hanswered] using hend
          · simpa [Utf8Decoder.fields, hanswered] using hdrop
          · intro _ a ha
            simp only [Utf8Decoder.fields, hanswered] at ha
            exact ⟨b, Option.some.inj (ha.symm.trans hfeed)⟩
      | ended f => exact hfeed.elim
  | @ended reader hrequests hanswers =>
      obtain ⟨last, hanswered, hlast, hfailure⟩ := exists_answered_end answers
      rw [← hrequests] at hanswered
      refine ⟨fun _ hb => ?_, ?_, ?_, ?_, fun hrunning => ?_, hanswers⟩
      · cases hb
      · intro f hf
        refine ⟨rfl, ?_⟩
        simp only [Utf8Decoder.fields, hanswered, List.getLast?_concat]
        rw [hfailure f (hdue f hf)]
      · refine iff_of_true rfl ⟨last, ?_, hlast⟩
        simp [Utf8Decoder.fields, hanswered]
      · simp only [Utf8Decoder.fields, hanswered, List.dropLast_concat]
        exact fun a ha => List.mem_takeWhile_imp ha
      · cases hrunning

/-- **Nothing is lost between the reader and the decoder**: what was delivered, less what is
pending, and what is still to be decoded are all the bytes. -/
theorem exists_delivered (h : Tracks answers due d) :
    ∃ given, (answered answers d.reader.requests).filterMap ReadAnswer.byte? =
        given ++ d.fields.pending.toList ∧
      (contentsFrom answers).1 = given ++ d.bytes := by
  cases h with
  | @running passed left feed happ hpassed hfeed _ =>
      have hanswered : answered answers passed.length = passed := by
        rw [happ, answered_length_append]
      have hcontents := congrArg Prod.fst (contentsFrom_append left hpassed)
      rw [← happ] at hcontents
      cases feed with
      | flowing =>
          refine ⟨passed.filterMap ReadAnswer.byte?, ?_, hcontents⟩
          rw [hanswered]
          exact (List.append_nil _).symm
      | held b =>
          obtain ⟨before, rfl⟩ := List.getLast?_eq_some_iff.1 hfeed
          have hdelivered : (before ++ [ReadAnswer.byte b]).filterMap ReadAnswer.byte? =
              before.filterMap ReadAnswer.byte? ++ [b] := by
            rw [List.filterMap_append]
            rfl
          refine ⟨before.filterMap ReadAnswer.byte?, ?_, ?_⟩
          · rw [hanswered]
            exact hdelivered
          · rw [hcontents, hdelivered, List.append_assoc]
            rfl
      | ended f => exact hfeed.elim
  | @ended reader hrequests _ =>
      obtain ⟨last, hanswered, hlast, _⟩ := exists_answered_end answers
      refine ⟨(contentsFrom answers).1, ?_, (List.append_nil _).symm⟩
      simp [Utf8Decoder.fields, hrequests, hanswered, filterMap_takeWhile_goesOn,
        ReadAnswer.byte?_of_goesOn hlast]

end Tracks

namespace Utf8Decoder

variable {answers : List ReadAnswer} {replies : List Reply} {taken left : List DecodedUnit}
variable {d : Utf8Decoder}

/-- **The bytes of a decoder so far.** -/
theorem Keeps.accounts (h : Keeps answers replies taken left d) :
    d.fields.Accounts answers replies taken left := by
  have hbytes : left.flatMap DecodedUnit.part = d.bytes := h.division_bytes.flatMap_part
  have hleft : left = [] ↔ d.bytes = [] := by
    constructor
    · rintro rfl
      exact hbytes.symm
    · intro hnil
      have hdivision := h.division_bytes
      rw [hnil] at hdivision
      exact hdivision.of_nil
  refine ⟨h.division, h.returned, ?_, ?_, ?_, ?_⟩
  · obtain ⟨due, htracks, _⟩ := h.tracks
    obtain ⟨given, hdelivered, hcontents⟩ := htracks.exists_delivered
    have hall := h.division.flatMap_part
    rw [List.flatMap_append, hbytes, hcontents] at hall
    rw [fields_reader, hdelivered, ← List.append_cancel_right hall]
  · rw [fields_unread, hbytes]
  · intro b
    rw [fields_pending_iff, fields_unread]
    constructor
    · intro hheld
      obtain ⟨_, u, hu, hincomplete⟩ := h.held_iff.1 ⟨b, hheld⟩
      have hhead := bytes_of_held hheld
      refine ⟨by rw [hhead]; rfl, u, hu, ?_⟩
      obtain ⟨before, rfl⟩ := List.getLast?_eq_some_iff.1 hu
      have hdivision := h.division
      rw [List.append_assoc, List.singleton_append] at hdivision
      have hunit := hdivision.decodesTo
      rw [hbytes, hhead] at hunit
      obtain ⟨hreplacement, hcut⟩ := hunit.of_isIncomplete hincomplete
      exact ⟨hreplacement, hincomplete, hcut b _ rfl⟩
    · rintro ⟨hhead, u, hu, _, hincomplete, _⟩
      have hne : d.bytes ≠ [] := by
        intro hnil
        rw [hnil] at hhead
        cases hhead
      obtain ⟨b', hheld⟩ := h.held_iff.2 ⟨hne, u, hu, hincomplete⟩
      rw [bytes_of_held hheld] at hhead
      rw [hheld, Option.some.inj hhead]
  · rw [fields_exhausted_iff, h.hasEnded_iff, hleft]

end Utf8Decoder

/-! ### Characters that are whole, and the end -/

namespace DecoderFields

variable {answers : List ReadAnswer} {replies : List Reply} {taken left : List DecodedUnit}
variable {s : DecoderFields}

/-- At the end nothing is pending. -/
theorem Consistent.atRest (h : s.Consistent answers) (hs : s.exhausted = true) : s.AtRest := by
  refine ⟨hs, Option.eq_none_iff_forall_ne_some.2 fun b hb => ?_⟩
  rw [h.not_exhausted_of_pending b hb] at hs
  cases hs

/-- **A character that is whole is returned without a look at what comes after it**: the last answer
is its last byte. -/
theorem Accounts.of_whole (h : s.Accounts answers replies taken left) (hs : s.Consistent answers)
    {u : DecodedUnit} (hu : taken.getLast? = some u)
    (hwhole : u.part = String.utf8EncodeChar u.character) (hno : Reply.character none ∉ replies) :
    s.pending = none ∧ s.exhausted = false ∧ ∃ b, u.part.getLast? = some b ∧
      (answered answers s.reader.requests).getLast? = some (.byte b) := by
  have hcomplete : ¬ LastIncomplete taken := by
    rintro ⟨v, hv, hincomplete⟩
    obtain rfl : u = v := Option.some.inj (hu.symm.trans hv)
    rw [hwhole] at hincomplete
    exact not_isIncomplete_utf8EncodeChar _ hincomplete
  have hpending : s.pending = none := by
    refine Option.eq_none_iff_forall_ne_some.2 fun b hb => hcomplete ?_
    obtain ⟨_, v, hv, _, hincomplete, _⟩ := (h.pending_iff b).1 hb
    exact ⟨v, hv, hincomplete⟩
  have hrunning : s.exhausted = false := by
    refine Bool.eq_false_iff.2 fun hend => ?_
    rcases h.exhausted_iff.1 hend with hmem | ⟨_, hlast⟩
    · exact hno hmem
    · exact hcomplete hlast
  refine ⟨hpending, hrunning, ?_⟩
  -- the delivered bytes end with the character, and the last answer was a byte
  obtain ⟨before, rfl⟩ := List.getLast?_eq_some_iff.1 hu
  have hne : u.part ≠ [] := by
    rw [hwhole]
    exact String.utf8EncodeChar_ne_nil
  have hdelivered := h.delivered
  rw [hpending, List.flatMap_append, List.flatMap_singleton] at hdelivered
  simp only [Option.toList_none, List.append_nil] at hdelivered
  cases hlast : (answered answers s.reader.requests).getLast? with
  | none =>
      rw [List.getLast?_eq_none_iff.1 hlast] at hdelivered
      exact absurd (List.append_eq_nil_iff.1 hdelivered.symm).2 hne
  | some a =>
      obtain ⟨b, rfl⟩ := hs.byte_getLast hrunning a hlast
      obtain ⟨earlier, hearlier⟩ := List.getLast?_eq_some_iff.1 hlast
      refine ⟨b, ?_, rfl⟩
      have hbytes := congrArg List.getLast? hdelivered
      rw [hearlier, List.filterMap_append, List.getLast?_append_of_ne_nil _ hne] at hbytes
      rw [← hbytes]
      simp [ReadAnswer.byte?]

end DecoderFields

/-- **The request that finds the end** is answered none where nothing is left, and with one U+FFFD
where the end has cut the last character short. -/
theorem Utf8Decoder.Keeps.ask_of_end {answers : List ReadAnswer} {replies : List Reply}
    {taken left : List DecodedUnit} {d : Utf8Decoder} (h : Keeps answers replies taken left d)
    (hd : ¬ d.HasEnded) {request : Request} (hend : (d.ask request).2.HasEnded) :
    (left = [] ∧ (d.ask request).1 = .character none) ∨
      ∃ u, left = [u] ∧ IsIncomplete u.part ∧
        (d.ask request).1 = .character (some replacementCharacter) := by
  cases request with
  | failure =>
      obtain ⟨reader, feed⟩ := d
      cases feed with
      | flowing => exact absurd hend hd
      | held b => exact absurd hend hd
      | ended f => exact absurd ⟨f, rfl⟩ hd
  | character =>
      have hdivision := h.division_bytes
      rcases hn : d.next with ⟨o, d'⟩
      have hask : d.ask .character = (.character o, d') := by
        simp only [Utf8Decoder.ask, Request.ask, hn]
      rw [hask] at hend ⊢
      cases o with
      | none =>
          rw [(bytes_of_next_none hn).1] at hdivision
          exact Or.inl ⟨hdivision.of_nil, rfl⟩
      | some c =>
          obtain ⟨part, hbytes, hunit⟩ := decodesTo_of_next hn
          obtain ⟨hnil, hincomplete⟩ := (hasEnded_next_iff hn hbytes).1 hend
          have hnone : Division d'.bytes [] := by
            rw [hnil]
            exact .nil
          rw [hbytes] at hdivision
          have hleft := hdivision.unique (.cons hunit hnone)
          obtain ⟨rfl, _⟩ := hunit.of_isIncomplete hincomplete
          exact Or.inr ⟨_, hleft, hincomplete, rfl⟩

/-- **A decoder accounts for every byte**, whatever its reader answers and whatever is asked of it.
Its replies are the same as those by its fields.  A byte pends only before the end, a failure is
stored only after it.  The bytes that were delivered are those of the units returned and the pending
one, which is the next unread; it pends when it has cut the last unit short.  After a character that
is whole nothing more has been asked of the reader.  The request that finds the end is answered none,
or with the U+FFFD of the unit that the end has cut short; after it the reader is not asked again,
and no more characters come. -/
theorem decoder_accounts (answers : List ReadAnswer) (requests : List Request) :
    ∃ (replies : List Reply) (s : DecoderFields) (taken left : List DecodedUnit),
      askAll DecoderFields.ask requests (.ofReader ⟨answers, 0⟩) = (replies, s) ∧
      (∃ d, askAll Utf8Decoder.ask requests (.ofReader ⟨answers, 0⟩) = (replies, d) ∧
        d.fields = s) ∧
      s.Consistent answers ∧ s.Accounts answers replies taken left ∧
      (∀ u, taken.getLast? = some u → u.part = String.utf8EncodeChar u.character →
        Reply.character none ∉ replies → s.pending = none ∧ s.exhausted = false ∧
          ∃ b, u.part.getLast? = some b ∧
            (answered answers s.reader.requests).getLast? = some (.byte b)) ∧
      (∀ request, s.exhausted = false → (s.ask request).2.exhausted = true →
        (left = [] ∧ (s.ask request).1 = .character none) ∨
          ∃ u, left = [u] ∧ IsIncomplete u.part ∧
            (s.ask request).1 = .character (some replacementCharacter)) ∧
      (s.exhausted = true → ∀ more, (askAll DecoderFields.ask more s).2.reader = s.reader ∧
        ∀ reply ∈ (askAll DecoderFields.ask more s).1, reply.character? = none) := by
  obtain ⟨units, hstart⟩ := Utf8Decoder.Keeps.start answers
  obtain ⟨taken, left, hkeeps⟩ := hstart.askAll requests
  have hfields := Utf8Decoder.askAll_fields requests (.ofReader ⟨answers, 0⟩)
  rcases hrun : askAll Utf8Decoder.ask requests (.ofReader ⟨answers, 0⟩) with ⟨replies, d⟩
  rw [hrun] at hfields hkeeps
  obtain ⟨due, htracks, hdue⟩ := hkeeps.tracks
  have hconsistent := htracks.consistent hdue
  refine ⟨replies, d.fields, taken, left, hfields, ⟨d, rfl, rfl⟩, hconsistent, hkeeps.accounts,
    fun u hu hwhole hno => hkeeps.accounts.of_whole hconsistent hu hwhole hno, ?_,
    fun hend more => (hconsistent.atRest hend).reader_askAll more⟩
  intro request hrunning hend
  rw [Utf8Decoder.fields_ask] at hend ⊢
  refine hkeeps.ask_of_end (fun hended => ?_) (Utf8Decoder.fields_exhausted_iff.1 hend)
  rw [Utf8Decoder.fields_exhausted_iff.2 hended] at hrunning
  cases hrunning

/-- A byte cuts a character short, and is a character of its own after which the reader fails.  What
the reader has after that is left alone. -/
theorem decoder_accounts_of_cut :
    let answers : List ReadAnswer := [.byte 0xE2, .byte 0x82, .interrupted, .byte 0x78,
      .failed ⟨"BrokenPipe", "gone"⟩, .byte 0x79]
    let after (n : Nat) := askAll DecoderFields.ask (List.replicate n .character)
      (.ofReader ⟨answers, 0⟩)
    (after 1).2.pending = some 0x78 ∧ (after 2).1.getLast? = some (.character (some 'x')) ∧
      (after 2).2.pending = none ∧
      (answered answers (after 2).2.reader.requests).getLast? = some (.byte 0x78) ∧
      ((after 2).2.ask .character).1 = .character none ∧ (after 3).2.exhausted = true ∧
      ∀ more, (askAll DecoderFields.ask more (after 3).2).2.reader = (after 3).2.reader := by
  intro answers after
  have hpending : (after 1).2.pending = some 0x78 := by decide +kernel
  have hreplies : (after 2).1 = [.character (some replacementCharacter), .character (some 'x')] := by
    decide +kernel
  have hrunning : (after 2).2.exhausted = false := by decide +kernel
  have hend : ((after 2).2.ask .character).2.exhausted = true := by decide +kernel
  have hcut : ((after 2).2.ask .character).1 ≠ .character (some replacementCharacter) := by
    decide +kernel
  have hended : (after 3).2.exhausted = true := by decide +kernel
  obtain ⟨replies, s, taken, left, hrun, _, _, haccounts, hwhole, hfinds, _⟩ :=
    decoder_accounts answers (List.replicate 2 .character)
  obtain ⟨_, t, _, _, hrun', _, _, _, _, _, hrest⟩ :=
    decoder_accounts answers (List.replicate 3 .character)
  have hafter : after 2 = (replies, s) := hrun
  have hafter' : (after 3).2 = t := congrArg Prod.snd hrun'
  rw [hafter] at hreplies hrunning hend hcut
  rw [hafter'] at hended
  obtain rfl : replies = _ := hreplies
  -- the last unit is the one of the last character, and that is whole
  have hreturned := haccounts.returned
  obtain ⟨v, u, rfl⟩ : ∃ v u, taken = [v, u] := by
    refine List.length_eq_two.1 ?_
    rw [← List.length_map DecodedUnit.character, ← hreturned]
    rfl
  have hu : u.character = 'x' := by simpa [Reply.character?] using (List.cons.inj hreturned).2.symm
  have hdivision : Division (contentsFrom answers).1 ([v] ++ u :: left) := haccounts.division
  have hunit := hdivision.decodesTo
  have hpart := hunit.eq_utf8EncodeChar (by rw [hu]; decide)
  obtain ⟨hnone, _, b, hb, hlast⟩ := hwhole u rfl hpart (by simp)
  rw [hpart, hu] at hb
  obtain rfl : (0x78 : UInt8) = b := Option.some.inj hb
  rw [hafter, hafter']
  refine ⟨hpending, rfl, hnone, hlast, ?_, hended, fun more => (hrest hended more).1⟩
  rcases hfinds .character hrunning hend with ⟨_, hreply⟩ | ⟨_, _, _, hreply⟩
  · exact hreply
  · exact absurd hreply hcut

end StreamLexer
