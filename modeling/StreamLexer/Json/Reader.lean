/-
**Readers over bytes.**

A reader takes bytes off the front of a text and returns a value, or fails for the first cause it
meets.  Readers never put bytes back, and this is what bounds the repetition of a reader: one that
shortens the text at each turn comes to an end.

The bytes of a text may come from somewhere that fails after some of them.  Whoever looks beyond the
last byte then meets that failure, and not the end of the text; what breaks the rules before it is
found first.

Main definitions:

* `StreamLexer.Json.Input` — a text as it is read;
* `StreamLexer.Json.Reader` — a reader;
* `StreamLexer.Json.Input.IsRestOf`, `StreamLexer.Json.Shrinks` — the rest is no longer than the
  text, and fails if the text does;
* `StreamLexer.Json.nextByte`, `StreamLexer.Json.peekByte`, `StreamLexer.Json.digits` — what looks
  at the bytes of a text, and beyond them;
* `StreamLexer.Json.nextSolid`, `StreamLexer.Json.peekSolid` — the byte after the blanks at the
  front;
* `StreamLexer.Json.literal` — the letters of a literal name.

Main results:

* `StreamLexer.Json.Shrinks.bind` — readers that do not lengthen the text may follow each other.
-/

import StreamLexer.Json.ReadError

set_option relaxedAutoImplicit false
set_option autoImplicit false

namespace StreamLexer.Json

/-- The bytes of a text. -/
abbrev Bytes := List UInt8

/-- A text as it is read: the bytes that are left of it, and why there are no more after them if
that is not for the end of the text. -/
structure Input where
  bytes : Bytes
  failure : Option String := none
deriving DecidableEq, Repr

/-- A reader of values of type `α`. -/
abbrev Reader (α : Type) := StateT Input (Except ReadError) α

/-- The byte of an ASCII character. -/
def byte (c : Char) : UInt8 := UInt8.ofNat c.toNat

/-! ### Readers take bytes off the front -/

/-- The rest is no longer than the text, and fails if the text does. -/
structure Input.IsRestOf (rest s : Input) : Prop where
  length_le : rest.bytes.length ≤ s.bytes.length
  failure_eq : rest.failure = s.failure

theorem Input.IsRestOf.refl (s : Input) : s.IsRestOf s := ⟨Nat.le_refl _, rfl⟩

theorem Input.IsRestOf.trans {a b c : Input} (h : a.IsRestOf b) (h' : b.IsRestOf c) :
    a.IsRestOf c :=
  ⟨Nat.le_trans h.length_le h'.length_le, h.failure_eq.trans h'.failure_eq⟩

/-- What a reader leaves is a rest of the text. -/
def Shrinks {α : Type} (p : Reader α) : Prop :=
  ∀ {s rest : Input} {a : α}, p s = .ok (a, rest) → rest.IsRestOf s

/-- A reader followed by another: the second goes on where the first leaves off. -/
theorem bind_apply {α β : Type} (p : Reader α) (f : α → Reader β) (s : Input) :
    (p >>= f) s = p s >>= fun x => f x.1 x.2 := rfl

/-- What a sequence of two readers comes to. -/
theorem bind_eq_ok {α β : Type} {p : Reader α} {f : α → Reader β} {s rest : Input} {b : β}
    (h : (p >>= f) s = .ok (b, rest)) : ∃ a mid, p s = .ok (a, mid) ∧ f a mid = .ok (b, rest) := by
  rw [bind_apply] at h
  cases hp : p s with
  | error e => rw [hp] at h; cases h
  | ok x => exact ⟨x.1, x.2, rfl, by rw [hp] at h; exact h⟩

theorem Shrinks.pure {α : Type} (a : α) : Shrinks (Pure.pure a : Reader α) := by
  intro s rest b h
  obtain rfl : s = rest := congrArg Prod.snd (Except.ok.inj h)
  exact .refl s

theorem Shrinks.throw {α : Type} (e : ReadError) : Shrinks (MonadExcept.throw e : Reader α) := by
  intro s rest b h
  cases h

theorem Shrinks.bind {α β : Type} {p : Reader α} {f : α → Reader β} (hp : Shrinks p)
    (hf : ∀ a, Shrinks (f a)) : Shrinks (p >>= f) := by
  intro s rest b h
  obtain ⟨a, mid, h₁, h₂⟩ := bind_eq_ok h
  exact (hf a h₂).trans (hp h₁)

/-! ### Single bytes -/

/-- Beyond the last byte there is the given answer, or the failure in its place. -/
def Input.beyond {α : Type} (s : Input) (a : α) : Except ReadError (α × Input) :=
  match s.failure with
  | none => .ok (a, ⟨[], none⟩)
  | some message => .error (.unreadable message)

/-- The next byte, taken off, or `none` at the end of the text. -/
def nextByte : Reader (Option UInt8) := fun s =>
  match s.bytes with
  | [] => s.beyond none
  | b :: rest => .ok (some b, { s with bytes := rest })

/-- The next byte, left where it is. -/
def peekByte : Reader (Option UInt8) := fun s =>
  match s.bytes with
  | [] => s.beyond none
  | b :: _ => .ok (some b, s)

/-- Whether a byte is a decimal digit. -/
def isDigit (b : UInt8) : Bool := byte '0' ≤ b && b ≤ byte '9'

/-- The longest run of digits at the front.  It takes a look at what follows. -/
def digits : Reader (List UInt8) := fun s =>
  match s.bytes.dropWhile isDigit with
  | [] => s.beyond s.bytes
  | rest => .ok (s.bytes.takeWhile isDigit, { s with bytes := rest })

/-- The blanks of JSON: space, line feed, tab and carriage return. -/
def isSpace (b : UInt8) : Bool :=
  b == byte ' ' || b == byte '\n' || b == byte '\t' || b == byte '\r'

/-- The text without the blanks at its front. -/
def Input.skipSpace (s : Input) : Input := { s with bytes := s.bytes.dropWhile isSpace }

/-- The byte after the blanks at the front, taken off, or `none` at the end of the text. -/
def nextSolid : Reader (Option UInt8) := fun s => nextByte s.skipSpace

/-- The byte after the blanks at the front, left where it is. -/
def peekSolid : Reader (Option UInt8) := fun s => peekByte s.skipSpace

theorem Input.isRestOf_beyond {α : Type} {s rest : Input} {a b : α}
    (h : s.beyond a = .ok (b, rest)) : rest.IsRestOf s := by
  unfold beyond at h
  split at h
  · next hf =>
      obtain ⟨_, rfl⟩ := Prod.mk.inj (Except.ok.inj h)
      exact ⟨Nat.zero_le _, hf.symm⟩
  · cases h

theorem Input.isRestOf_skipSpace (s : Input) : s.skipSpace.IsRestOf s :=
  ⟨(List.dropWhile_sublist _).length_le, rfl⟩

/-- A byte that was there is gone. -/
theorem length_lt_of_nextByte {s rest : Input} {b : UInt8} (h : nextByte s = .ok (some b, rest)) :
    rest.bytes.length < s.bytes.length := by
  unfold nextByte at h
  split at h
  · unfold Input.beyond at h
    split at h <;> cases h
  · next b' t hs =>
      obtain ⟨_, rfl⟩ := Prod.mk.inj (Except.ok.inj h)
      rw [hs]
      exact Nat.lt_succ_self _

theorem shrinks_nextByte : Shrinks nextByte := by
  intro s rest o h
  unfold nextByte at h
  split at h
  · exact Input.isRestOf_beyond h
  · next b t hs =>
      obtain ⟨_, rfl⟩ := Prod.mk.inj (Except.ok.inj h)
      refine ⟨?_, rfl⟩
      rw [hs]
      exact Nat.le_succ _

theorem shrinks_peekByte : Shrinks peekByte := by
  intro s rest o h
  unfold peekByte at h
  split at h
  · exact Input.isRestOf_beyond h
  · obtain ⟨_, rfl⟩ := Prod.mk.inj (Except.ok.inj h)
    exact .refl s

theorem shrinks_digits : Shrinks digits := by
  intro s rest o h
  unfold digits at h
  split at h
  · exact Input.isRestOf_beyond h
  · obtain ⟨_, rfl⟩ := Prod.mk.inj (Except.ok.inj h)
    exact ⟨(List.dropWhile_sublist _).length_le, rfl⟩

theorem shrinks_nextSolid : Shrinks nextSolid := by
  intro s rest o h
  exact (shrinks_nextByte h).trans s.isRestOf_skipSpace

theorem shrinks_peekSolid : Shrinks peekSolid := by
  intro s rest o h
  exact (shrinks_peekByte h).trans s.isRestOf_skipSpace

/-- A byte that was there is gone. -/
theorem length_lt_of_nextSolid {s rest : Input} {b : UInt8}
    (h : nextSolid s = .ok (some b, rest)) : rest.bytes.length < s.bytes.length :=
  Nat.lt_of_lt_of_le (length_lt_of_nextByte h) s.isRestOf_skipSpace.length_le

/-! ### Literal names -/

/-- The given letters, which must come next. -/
def literal : List Char → Reader Unit
  | [] => pure ()
  | c :: cs => do
      match ← nextByte with
      | none => throw .endInValue
      | some b => if b = byte c then literal cs else throw .expectedIdent

theorem shrinks_literal (letters : List Char) : Shrinks (literal letters) := by
  induction letters with
  | nil => exact Shrinks.pure _
  | cons c cs ih =>
      refine Shrinks.bind shrinks_nextByte fun o => ?_
      split
      · exact Shrinks.throw _
      · split
        · exact ih
        · exact Shrinks.throw _

end StreamLexer.Json
