/-
**Sessions over a reader.**

Whatever a reader answers — bytes one by one, interruptions, an end of the data or a failure
anywhere — a tokenizer over it is used with the same results as one over the text that the bytes
before the end decode to.  What remains of the reader is its failure: it is handed over once, to
whoever asks for it first after it has happened.

Main definitions:

* `StreamLexer.ReadAnswer.goesOn`, `StreamLexer.ByteReader.requestsBeforeEnd` — the answers that do
  not end the data, and how many there are before the one that does;
* `StreamLexer.Tracks` — **the state of a decoder**, as far as its failure is concerned;
* `StreamLexer.Decodes` — a decoder with so many characters still to give.

Main results:

* `StreamLexer.simulation_decodes` — a decoder answers like the text of its bytes;
* `StreamLexer.Step.perform_decodes` — what one step preserves;
* `StreamLexer.session_ofReader` — **a session over a reader** and one over its text.
-/

import StreamLexer.Proofs.LossyDecoding
import StreamLexer.Proofs.SourceSimulation

set_option relaxedAutoImplicit false
set_option autoImplicit false

namespace StreamLexer

/-! ### The end of the data -/

/-- The reader has more to answer after this. -/
def ReadAnswer.goesOn : ReadAnswer → Bool
  | byte _ => true
  | interrupted => true
  | finished => false
  | failed _ => false

/-- The byte of an answer. -/
def ReadAnswer.byte? : ReadAnswer → Option UInt8
  | byte b => some b
  | _ => none

namespace ByteReader

/-- The number of requests before the one that finds the end of the data. -/
def requestsBeforeEnd (answers : List ReadAnswer) : Nat :=
  (answers.takeWhile ReadAnswer.goesOn).length

theorem requestsBeforeEnd_append {passed : List ReadAnswer} (left : List ReadAnswer)
    (h : ∀ a ∈ passed, a.goesOn = true) :
    requestsBeforeEnd (passed ++ left) = passed.length + requestsBeforeEnd left := by
  rw [requestsBeforeEnd, List.takeWhile_append_of_pos h, List.length_append, requestsBeforeEnd]

/-- The bytes of answers that go on come before those of the others, which have the failure. -/
theorem contentsFrom_append {passed : List ReadAnswer} (left : List ReadAnswer)
    (h : ∀ a ∈ passed, a.goesOn = true) :
    contentsFrom (passed ++ left) =
      (passed.filterMap ReadAnswer.byte? ++ (contentsFrom left).1, (contentsFrom left).2) := by
  induction passed with
  | nil => rfl
  | cons a passed ih =>
      have hrest := ih fun a' ha' => h a' (List.mem_cons_of_mem a ha')
      cases a with
      | byte b =>
          rw [List.cons_append, contentsFrom, hrest]
          rfl
      | interrupted => exact hrest
      | finished => exact absurd (h _ List.mem_cons_self) Bool.false_ne_true
      | failed f => exact absurd (h _ List.mem_cons_self) Bool.false_ne_true

/-- Up to a byte the reader goes on, and the byte is its last answer. -/
theorem exists_passed_of_byte {as : List ReadAnswer} {n : Nat} {b : UInt8} {r : ByteReader}
    (h : deliverFrom as n = (.byte b, r)) :
    ∃ passed, as = passed ++ r.answers ∧ (∀ a ∈ passed, a.goesOn = true) ∧
      passed.getLast? = some (.byte b) ∧ r.requests = n + passed.length := by
  induction as generalizing n with
  | nil => simp [deliverFrom] at h
  | cons a as ih =>
      cases a with
      | byte b' =>
          simp only [deliverFrom, Prod.mk.injEq, Delivery.byte.injEq] at h
          obtain ⟨rfl, rfl⟩ := h
          exact ⟨[.byte b'], rfl, by simp [ReadAnswer.goesOn], rfl, rfl⟩
      | interrupted =>
          obtain ⟨passed, rfl, hpassed, hlast, hrequests⟩ := ih h
          refine ⟨.interrupted :: passed, rfl, ?_, ?_, ?_⟩
          · intro a ha
            rcases List.mem_cons.1 ha with rfl | ha
            · rfl
            · exact hpassed a ha
          · rw [List.getLast?_cons, hlast]
            rfl
          · rw [hrequests, List.length_cons]
            omega
      | finished => simp [deliverFrom] at h
      | failed f => simp [deliverFrom] at h

/-- Finding the end takes one request more than there are before it. -/
theorem requests_of_ended {as : List ReadAnswer} {n : Nat} {f : Option ReadFailure}
    {r : ByteReader} (h : deliverFrom as n = (.ended f, r)) :
    r.requests = n + (requestsBeforeEnd as + 1) ∧
      r.answers = as.drop (requestsBeforeEnd as + 1) := by
  induction as generalizing n with
  | nil =>
      obtain ⟨_, rfl⟩ := Prod.mk.inj h
      exact ⟨rfl, rfl⟩
  | cons a as ih =>
      cases a with
      | byte b => simp [deliverFrom] at h
      | interrupted =>
          obtain ⟨hrequests, hanswers⟩ := ih h
          have hcount : requestsBeforeEnd (.interrupted :: as) = requestsBeforeEnd as + 1 := rfl
          rw [hcount]
          exact ⟨by omega, hanswers⟩
      | finished =>
          obtain ⟨_, rfl⟩ := Prod.mk.inj h
          exact ⟨rfl, rfl⟩
      | failed f' =>
          obtain ⟨_, rfl⟩ := Prod.mk.inj h
          exact ⟨rfl, rfl⟩

end ByteReader

open ByteReader

/-! ### The state of a decoder -/

variable {answers : List ReadAnswer} {due : Option ReadFailure} {d : Utf8Decoder}

/-- **What a feed tells of the answers so far**: where bytes flow the last answer was a byte, and a
byte that is held back is the last answer. -/
def Feed.AgreesWith (passed : List ReadAnswer) : Feed → Prop
  | flowing => ∀ a ∈ passed.getLast?, ∃ b, a = .byte b
  | held b => passed.getLast? = some (.byte b)
  | ended _ => False

/-- **A decoder over a reader with these answers**, `due` being the failure that is still to be
handed over: it goes on, and that is the failure of the reader; or it has found the end of the data
and keeps the failure. -/
inductive Tracks (answers : List ReadAnswer) (due : Option ReadFailure) : Utf8Decoder → Prop
  | running {passed left : List ReadAnswer} {feed : Feed} : answers = passed ++ left →
      (∀ a ∈ passed, a.goesOn = true) → feed.AgreesWith passed →
      due = (contentsFrom answers).2 → Tracks answers due ⟨⟨left, passed.length⟩, feed⟩
  | ended {reader : ByteReader} : reader.requests = requestsBeforeEnd answers + 1 →
      reader.answers = answers.drop reader.requests → Tracks answers due ⟨reader, .ended due⟩

namespace Tracks

theorem start (answers : List ReadAnswer) :
    Tracks answers (contentsFrom answers).2 (.ofReader ⟨answers, 0⟩) :=
  .running (List.nil_append answers).symm (fun _ ha => absurd ha List.not_mem_nil)
    (fun a ha => absurd ha (Option.not_mem_none a)) rfl

/-- A byte that was answered last may be passed on or held back. -/
theorem of_last_byte {passed left : List ReadAnswer} {b : UInt8} (happ : answers = passed ++ left)
    (hpassed : ∀ a ∈ passed, a.goesOn = true) (hlast : passed.getLast? = some (.byte b))
    (hdue : due = (contentsFrom answers).2) :
    Tracks answers due ⟨⟨left, passed.length⟩, .flowing⟩ ∧
      Tracks answers due ⟨⟨left, passed.length⟩, .held b⟩ := by
  refine ⟨.running happ hpassed ?_ hdue, .running happ hpassed hlast hdue⟩
  intro a ha
  rw [hlast] at ha
  exact ⟨b, (Option.some.inj ha).symm⟩

/-- A byte that has been read may be held back. -/
theorem readByte_some (h : Tracks answers due d) {d' : Utf8Decoder} {b : UInt8}
    (hr : d.readByte = (some b, d')) :
    Tracks answers due d' ∧ Tracks answers due ⟨d'.reader, .held b⟩ := by
  cases h with
  | @running passed left feed happ hpassed hfeed hdue =>
      cases feed with
      | held b' =>
          simp only [Utf8Decoder.readByte, Prod.mk.injEq, Option.some.injEq] at hr
          obtain ⟨rfl, rfl⟩ := hr
          exact of_last_byte happ hpassed hfeed hdue
      | ended f => exact hfeed.elim
      | flowing =>
          rcases hd : deliver ⟨left, passed.length⟩ with ⟨delivery, r⟩
          cases delivery with
          | ended f => simp [Utf8Decoder.readByte, hd] at hr
          | byte b' =>
              simp only [Utf8Decoder.readByte, hd, Prod.mk.injEq, Option.some.injEq] at hr
              obtain ⟨rfl, rfl⟩ := hr
              obtain ⟨more, hleft, hmore, hlast, hrequests⟩ := exists_passed_of_byte hd
              obtain ⟨as, requests⟩ := r
              obtain rfl : requests = (passed ++ more).length := by
                rw [List.length_append]
                exact hrequests
              refine of_last_byte ?_ ?_ ?_ hdue
              · rw [happ, List.append_assoc]
                exact congrArg (passed ++ ·) hleft
              · intro a ha
                rcases List.mem_append.1 ha with ha | ha
                · exact hpassed a ha
                · exact hmore a ha
              · rw [List.getLast?_append, hlast]
                rfl
  | ended => simp [Utf8Decoder.readByte] at hr

theorem readByte_none (h : Tracks answers due d) {d' : Utf8Decoder}
    (hr : d.readByte = (none, d')) : Tracks answers due d' := by
  cases h with
  | @running passed left feed happ hpassed hfeed hdue =>
      cases feed with
      | held b => simp [Utf8Decoder.readByte] at hr
      | ended f => exact hfeed.elim
      | flowing =>
          rcases hd : deliver ⟨left, passed.length⟩ with ⟨delivery, r⟩
          cases delivery with
          | byte b => simp [Utf8Decoder.readByte, hd] at hr
          | ended f =>
              simp only [Utf8Decoder.readByte, hd, Prod.mk.injEq, true_and] at hr
              obtain rfl := hr
              obtain ⟨hrequests, hanswers⟩ := requests_of_ended hd
              have hcontents : contentsFrom left = ([], f) := contentsFrom_of_deliverFrom_ended hd
              have hf : f = due := by
                rw [hdue, happ, contentsFrom_append left hpassed, hcontents]
              rw [hf]
              refine .ended ?_ ?_
              · rw [happ, requestsBeforeEnd_append left hpassed, hrequests, Nat.add_assoc]
              · rw [happ, hanswers, hrequests]
                exact (List.drop_length_add_append ..).symm
  | ended hrequests hanswers =>
      simp only [Utf8Decoder.readByte, Prod.mk.injEq, true_and] at hr
      rw [← hr]
      exact .ended hrequests hanswers

theorem finish {owed : List ByteRange} {bits : Nat} (h : Tracks answers due d) :
    Tracks answers due (Utf8Decoder.finish bits owed d).2 := by
  induction owed generalizing bits d with
  | nil => exact h
  | cons range owed ih =>
      rcases hr : d.readByte with ⟨o, d'⟩
      cases o with
      | none =>
          rw [Utf8Decoder.finish_of_none hr]
          exact h.readByte_none hr
      | some b =>
          obtain ⟨h', hheld⟩ := h.readByte_some hr
          cases hc : range.contains b with
          | true =>
              rw [Utf8Decoder.finish_of_contains hr hc]
              exact ih h'
          | false =>
              rw [Utf8Decoder.finish_of_blocked hr hc]
              exact hheld

theorem next (h : Tracks answers due d) : Tracks answers due d.next.2 := by
  rcases hr : d.readByte with ⟨o, d'⟩
  cases o with
  | none => simpa only [Utf8Decoder.next, hr] using h.readByte_none hr
  | some b =>
      have h' := (h.readByte_some hr).1
      cases hl : Lead.ofByte b with
      | single => simpa only [Utf8Decoder.next, hr, hl] using h'
      | illFormed => simpa only [Utf8Decoder.next, hr, hl] using h'
      | opening bits owed => simpa only [Utf8Decoder.next, hr, hl] using h'.finish

/-- **Taking the failure** gives it if it has happened and is still due; then it is due no more. -/
theorem takeFailure (h : Tracks answers due d) :
    ∃ due', Tracks answers due' d.takeFailure.2 ∧ d.takeFailure.2.bytes = d.bytes ∧
      (∀ f, d.takeFailure.1 = some f ↔
        due = some f ∧ requestsBeforeEnd answers < d.takeFailure.2.reader.requests) ∧
      ∀ f, due' = some f ↔ due = some f ∧ d.takeFailure.1 = none := by
  cases h with
  | @running passed left feed happ hpassed hfeed hdue =>
      have hnone : Utf8Decoder.takeFailure ⟨⟨left, passed.length⟩, feed⟩ =
          (none, ⟨⟨left, passed.length⟩, feed⟩) := by
        cases feed with
        | flowing => rfl
        | held b => rfl
        | ended f => exact hfeed.elim
      -- all answers so far went on, so the end has not been found yet
      have hle : passed.length ≤ requestsBeforeEnd answers := by
        rw [happ, requestsBeforeEnd_append left hpassed]
        exact Nat.le_add_right _ _
      rw [hnone]
      refine ⟨due, .running happ hpassed hfeed hdue, rfl, ?_, ?_⟩
      · intro f
        simp [Nat.not_lt.2 hle]
      · intro f
        simp
  | @ended reader hrequests hanswers =>
      have hlt : requestsBeforeEnd answers < reader.requests := by omega
      refine ⟨none, .ended hrequests hanswers, rfl, ?_, ?_⟩
      · intro f
        simp [Utf8Decoder.takeFailure, hlt]
      · intro f
        cases due with
        | none => simp
        | some f' => simp [Utf8Decoder.takeFailure]

end Tracks

/-! ### The text of a reader -/

/-- A decoder and a text with the same characters before them. -/
def Decodes (answers : List ReadAnswer) (due : Option ReadFailure) (d : Utf8Decoder) (s : TextCursor) : Prop :=
  Tracks answers due d ∧ LossyUtf8 d.bytes s.unread

/-- **A decoder answers like the text of its bytes.** -/
theorem simulation_decodes (answers : List ReadAnswer) (due : Option ReadFailure) :
    CharSource.Simulation (Decodes answers due) := by
  rintro d ⟨unread⟩ ⟨htracks, htext⟩
  have htracks' : Tracks answers due d.next.2 := htracks.next
  rcases hn : d.next with ⟨o, d'⟩
  have hnext : CharSource.next d = (o, d') := hn
  rw [hn] at htracks'
  rw [hnext]
  cases o with
  | none =>
      obtain ⟨hbytes, hbytes'⟩ := Utf8Decoder.bytes_of_next_none hn
      rw [hbytes] at htext
      obtain rfl : unread = [] := htext.of_nil
      exact ⟨rfl, htracks', hbytes' ▸ .nil⟩
  | some c =>
      obtain ⟨part, hbytes, hunit⟩ := Utf8Decoder.decodesTo_of_next hn
      rw [hbytes] at htext
      obtain ⟨cs, hcs, hrest⟩ := htext.of_unit hunit
      obtain rfl : unread = c :: cs := hcs
      exact ⟨rfl, htracks', hrest⟩

/-! ### Steps and sessions -/

/-- The failure that an outcome hands over. -/
def Outcome.failure {σ : Type} : Outcome σ → Option ReadFailure
  | failure? failure => failure
  | _ => none

/-- Only who takes a failure gets one. -/
theorem Step.failure_perform {σ : Type} [ObservedSource σ] {step : Step}
    (h : step ≠ takeFailure) (t : Tokenizer σ) : (step.perform t).1.failure = none := by
  cases step with
  | takeFailure => exact absurd rfl h
  | _ => rfl

open Tokenizer (Related)

/-- **One step over a reader and over its text.**  It shows the same, and the failure is handed over
if the step takes it, it has happened, and it is still due. -/
theorem Step.perform_decodes {t : Tokenizer Utf8Decoder} {u : Tokenizer TextCursor}
    (h : Related (Decodes answers due) t u) (step : Step) :
    ∃ due', Related (Decodes answers due') (step.perform t).2 (step.perform u).2 ∧
      (step.perform t).1.visible = (step.perform u).1.visible ∧
      (∀ f, (step.perform t).1.failure = some f ↔ due = some f ∧ step = takeFailure ∧
        requestsBeforeEnd answers < ObservedSource.position (step.perform t).2.source) ∧
      ∀ f, due' = some f ↔ due = some f ∧ (step.perform t).1.failure = none := by
  by_cases hstep : step = takeFailure
  · subst hstep
    obtain ⟨hlookahead, htracks, htext⟩ := h
    obtain ⟨due', htracks', hbytes, hfailure, hdue'⟩ := htracks.takeFailure
    refine ⟨due', ⟨hlookahead, htracks', ?_⟩, rfl, ?_, hdue'⟩
    · show LossyUtf8 t.source.takeFailure.2.bytes u.source.unread
      rw [hbytes]
      exact htext
    · intro f
      rw [eq_self, true_and]
      exact hfailure f
  · obtain ⟨hvisible, h'⟩ := perform_related (simulation_decodes answers due) hstep h
    have hnone := failure_perform hstep t
    refine ⟨due, h', hvisible, ?_, ?_⟩
    · intro f
      simp [hnone, hstep]
    · intro f
      simp [hnone]

/-- **A whole session over a reader and over its text.** -/
theorem Session.run_decodes {t : Tokenizer Utf8Decoder} {u : Tokenizer TextCursor}
    (h : Related (Decodes answers due) t u) (steps : List Step) :
    (run steps t).map (·.1.visible) = (run steps u).map (·.1.visible) ∧
      ∀ i outcome requests, (run steps t)[i]? = some (outcome, requests) → ∀ f,
        outcome.failure = some f ↔ steps[i]? = some .takeFailure ∧ due = some f ∧
          requestsBeforeEnd answers < requests ∧
          ∀ earlier ∈ (run steps t).take i, earlier.1.failure = none := by
  induction steps generalizing t u due with
  | nil =>
      refine ⟨rfl, ?_⟩
      intro i outcome requests hi
      simp [run] at hi
  | cons step steps ih =>
      obtain ⟨due', h', hvisible, hfailure, hdue'⟩ := step.perform_decodes h
      obtain ⟨hrest, hlaw⟩ := ih h'
      constructor
      · simp only [run, List.map_cons, hvisible, hrest]
      · intro i outcome requests hi f
        cases i with
        | zero =>
            simp only [run, List.getElem?_cons_zero, Option.some.injEq, Prod.mk.injEq] at hi
            obtain ⟨rfl, rfl⟩ := hi
            rw [hfailure f]
            simp [and_left_comm]
        | succ i =>
            simp only [run, List.getElem?_cons_succ] at hi
            rw [hlaw i outcome requests hi f, hdue' f]
            simp only [run, List.getElem?_cons_succ, List.take_succ_cons, List.forall_mem_cons]
            tauto

/-- **A session over a reader.**  Whatever the reader answers, there is one text, which its bytes
decode to, such that every session shows what it shows over that text.  The failure that ended the
data, if one did, comes to whoever takes it first after it has happened, and to nobody else. -/
theorem session_ofReader (answers : List ReadAnswer) :
    ∃ text : String,
      (∀ cs, LossyUtf8 (contentsFrom answers).1 cs ↔ cs = text.toList) ∧
      ∀ steps : List Step,
        (Session.run steps (Tokenizer.ofReader ⟨answers, 0⟩)).map (·.1.visible) =
          (Session.run steps (Tokenizer.ofString text)).map (·.1.visible) ∧
        ∀ i outcome requests,
          (Session.run steps (Tokenizer.ofReader ⟨answers, 0⟩))[i]? = some (outcome, requests) →
          ∀ f, outcome.failure = some f ↔
            steps[i]? = some .takeFailure ∧ (contentsFrom answers).2 = some f ∧
              requestsBeforeEnd answers < requests ∧
              ∀ earlier ∈ (Session.run steps (Tokenizer.ofReader ⟨answers, 0⟩)).take i,
                earlier.1.failure = none := by
  obtain ⟨text, htext⟩ : ∃ text : String,
      text.toList = decodeUtf8 (contentsFrom answers).1 := ⟨.ofList _, String.toList_ofList⟩
  have hlossy : ∀ cs, LossyUtf8 (contentsFrom answers).1 cs ↔ cs = text.toList := by
    intro cs
    rw [htext]
    exact lossyUtf8_iff
  refine ⟨text, hlossy, ?_⟩
  intro steps
  have hstart : Decodes answers (contentsFrom answers).2 (.ofReader ⟨answers, 0⟩)
      (.ofString text) := ⟨.start answers, (hlossy _).2 rfl⟩
  exact Session.run_decodes (Tokenizer.related_ofSource hstart) steps

end StreamLexer
