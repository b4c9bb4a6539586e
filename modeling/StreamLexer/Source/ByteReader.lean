/-
**Reading bytes one at a time.**

A byte reader answers each request with a byte, with the end of its data, with an interruption, or
with a failure.  Interruptions are passed over by asking again; an end or a failure stops the
delivery.

Main definitions:

* `StreamLexer.ReadFailure` — why a read failed;
* `StreamLexer.ReadAnswer` — the answer to one request;
* `StreamLexer.ByteReader` — the answers still to come, and the number of requests so far;
* `StreamLexer.ByteReader.deliver` — **the next byte**, or how the data ended;
* `StreamLexer.ByteReader.contents` — all bytes up to the first end or failure.

Main results:

* `StreamLexer.ByteReader.length_answers_lt`, `StreamLexer.ByteReader.length_answers_le` — a
  delivery uses up answers, at least one of them if it is a byte.
-/

set_option relaxedAutoImplicit false
set_option autoImplicit false

namespace StreamLexer

/-- A failed read: the name of the kind of failure, and its text. -/
structure ReadFailure where
  kind : String
  message : String
deriving DecidableEq, Repr

/-- The answer to one request for a byte. -/
inductive ReadAnswer where
  | byte (b : UInt8)
  | finished
  | interrupted
  | failed (failure : ReadFailure)
deriving DecidableEq, Repr

/-- A reader: what it will answer, and how often it has been asked.  Once the answers are used up
every request finds the data finished. -/
structure ByteReader where
  answers : List ReadAnswer
  /-- The number of requests so far. -/
  requests : Nat := 0
deriving DecidableEq, Repr

/-- What reading on to the next byte comes to: the byte, or the end of the data and the failure
that caused it, if one did. -/
inductive Delivery where
  | byte (b : UInt8)
  | ended (failure : Option ReadFailure)
deriving DecidableEq, Repr

namespace ByteReader

/-- A reader of the given bytes. -/
def ofBytes (bytes : List UInt8) : ByteReader := ⟨bytes.map .byte, 0⟩

/-- A reader that fails at once. -/
def failing (failure : ReadFailure) : ByteReader := ⟨[.failed failure], 0⟩

/-- The delivery from a list of answers after `requests` requests. -/
def deliverFrom : List ReadAnswer → Nat → Delivery × ByteReader
  | [], requests => (.ended none, ⟨[], requests + 1⟩)
  | .byte b :: as, requests => (.byte b, ⟨as, requests + 1⟩)
  | .finished :: as, requests => (.ended none, ⟨as, requests + 1⟩)
  | .interrupted :: as, requests => deliverFrom as (requests + 1)
  | .failed f :: as, requests => (.ended (some f), ⟨as, requests + 1⟩)

/-- **The next delivery of a reader**, asking again after each interruption. -/
def deliver (r : ByteReader) : Delivery × ByteReader := deliverFrom r.answers r.requests

/-- The bytes in a list of answers before the first end or failure, and that failure. -/
def contentsFrom : List ReadAnswer → List UInt8 × Option ReadFailure
  | [] => ([], none)
  | .byte b :: as =>
      let (bytes, failure) := contentsFrom as
      (b :: bytes, failure)
  | .finished :: _ => ([], none)
  | .interrupted :: as => contentsFrom as
  | .failed f :: _ => ([], some f)

/-- **The bytes of a reader** up to the first end of its data or the first failure, and the failure
if there is one. -/
def contents (r : ByteReader) : List UInt8 × Option ReadFailure := contentsFrom r.answers

theorem length_answers_deliverFrom_le (as : List ReadAnswer) (requests : Nat) :
    (deliverFrom as requests).2.answers.length ≤ as.length := by
  induction as generalizing requests with
  | nil => exact Nat.le_refl _
  | cons a as ih =>
      cases a with
      | byte b => exact Nat.le_succ _
      | finished => exact Nat.le_succ _
      | interrupted => exact Nat.le_succ_of_le (ih _)
      | failed f => exact Nat.le_succ _

theorem length_answers_le (r : ByteReader) : r.deliver.2.answers.length ≤ r.answers.length :=
  length_answers_deliverFrom_le _ _

theorem length_answers_deliverFrom_lt {as : List ReadAnswer} {requests : Nat} {b : UInt8}
    {r : ByteReader} (h : deliverFrom as requests = (.byte b, r)) :
    r.answers.length < as.length := by
  induction as generalizing requests with
  | nil => simp [deliverFrom] at h
  | cons a as ih =>
      cases a with
      | byte b =>
          obtain ⟨_, rfl⟩ := Prod.mk.inj h
          exact Nat.lt_succ_self _
      | finished => simp [deliverFrom] at h
      | interrupted => exact Nat.lt_succ_of_lt (ih h)
      | failed f => simp [deliverFrom] at h

/-- A delivered byte has used up an answer. -/
theorem length_answers_lt {r r' : ByteReader} {b : UInt8} (h : r.deliver = (.byte b, r')) :
    r'.answers.length < r.answers.length :=
  length_answers_deliverFrom_lt h

end ByteReader

end StreamLexer
