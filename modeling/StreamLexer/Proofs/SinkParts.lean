/-
**Writing in parts.**

A line reaches a sink in parts, as the text of a token and its line feed are put together, and the
lines come one after another.  To the sink this makes no difference: it takes bytes for as long as
it has room, and refuses those of the part for which it has none.  What the parts do tell is where
the refusal comes: in the one part that a bound on the bytes falls in.

Main definitions:

* `StreamLexer.Sink.append` — a sink with more bytes in it;
* `StreamLexer.Sink.writeAll` — what becomes of parts written one after another;
* `StreamLexer.Sink.limited` — an empty sink with a bound;
* `StreamLexer.CutAt` — the part in which a bound falls.

Main results:

* `StreamLexer.Sink.write_append`, `StreamLexer.Sink.writeAll_snd` — **a division into parts makes
  no difference**;
* `StreamLexer.CutAt.unique`, `StreamLexer.Sink.cutAt_writeAll` — a sink with a bound refuses the
  one part in which the bound falls.
-/

import StreamLexer.Output.Sink

set_option relaxedAutoImplicit false
set_option autoImplicit false

namespace StreamLexer

namespace Sink

/-! ### One write -/

/-- The sink with more bytes in it. -/
def append (s : Sink) (bytes : List UInt8) : Sink := { s with accepted := s.accepted ++ bytes }

@[simp] theorem append_nil (s : Sink) : s.append [] = s := by
  simp [append]

@[simp] theorem append_append (s : Sink) (a b : List UInt8) :
    (s.append a).append b = s.append (a ++ b) := by
  have hbytes : s.accepted ++ a ++ b = s.accepted ++ (a ++ b) := Array.ext' (by simp)
  simp [append, hbytes]

@[simp] theorem toList_accepted_append (s : Sink) (bytes : List UInt8) :
    (s.append bytes).accepted.toList = s.accepted.toList ++ bytes := by
  simp [append]

theorem size_accepted_append (s : Sink) (bytes : List UInt8) :
    (s.append bytes).accepted.size = s.accepted.size + bytes.length := by
  rw [← Array.length_toList, toList_accepted_append, List.length_append, Array.length_toList]

variable {s s' : Sink} {bytes : List UInt8} {n : Nat}

/-- Without a bound everything is taken. -/
theorem write_of_capacity_none (h : s.capacity = none) (bytes : List UInt8) :
    s.write bytes = (none, s.append bytes) := by
  simp [write, fitting, h, append]

/-- What fits is taken. -/
theorem write_of_le (h : s.capacity = some n) (hle : bytes.length ≤ n - s.accepted.size) :
    s.write bytes = (none, s.append bytes) := by
  simp [write, fitting, h, append, Nat.min_eq_right hle]

/-- Of what does not fit, the part that fits is taken. -/
theorem write_of_lt (h : s.capacity = some n) (hlt : n - s.accepted.size < bytes.length) :
    s.write bytes = (some s.refusal, s.append (bytes.take (n - s.accepted.size))) := by
  simp [write, fitting, h, append, Nat.min_eq_left (Nat.le_of_lt hlt), hlt]

/-- Writing nothing changes nothing. -/
theorem write_nil (s : Sink) : s.write [] = (none, s) := by
  simp [write]

/-- If the first part does not fit, nothing of the second is taken. -/
theorem write_append_of_lt {a : List UInt8} (h : s.capacity = some n)
    (hlt : n - s.accepted.size < a.length) (b : List UInt8) : s.write (a ++ b) = s.write a := by
  have hlt' : n - s.accepted.size < (a ++ b).length := by
    rw [List.length_append]
    omega
  rw [write_of_lt h hlt, write_of_lt h hlt', List.take_append_of_le_length (Nat.le_of_lt hlt)]

/-- If the first part fits, the second has the room that it leaves. -/
theorem write_append_of_le {a : List UInt8} (h : s.capacity = some n)
    (hle : a.length ≤ n - s.accepted.size) (b : List UInt8) :
    s.write (a ++ b) = (s.append a).write b := by
  have h' : (s.append a).capacity = some n := h
  have hroom : n - (s.append a).accepted.size = n - s.accepted.size - a.length := by
    rw [size_accepted_append, Nat.sub_add_eq]
  have hlength : (a ++ b).length = a.length + b.length := List.length_append
  rcases Nat.lt_or_ge (n - s.accepted.size - a.length) b.length with hlt | hfits
  · rw [write_of_lt h (by omega), write_of_lt h' (by omega), hroom, append_append,
      List.take_append, List.take_of_length_le hle]
    rfl
  · rw [write_of_le h (by omega), write_of_le h' (by omega), append_append]

/-- **Bytes may be written in two parts**: the second is written if the first has been taken. -/
theorem write_append (s : Sink) (a b : List UInt8) :
    s.write (a ++ b) = match s.write a with
      | (none, s') => s'.write b
      | (some refusal, s') => (some refusal, s') := by
  cases hc : s.capacity with
  | none =>
      have hc' : (s.append a).capacity = none := hc
      rw [write_of_capacity_none hc, write_of_capacity_none hc, ← append_append]
      exact (write_of_capacity_none hc' b).symm
  | some n =>
      rcases Nat.lt_or_ge (n - s.accepted.size) a.length with hlt | hle
      · rw [write_append_of_lt hc hlt, write_of_lt hc hlt]
      · rw [write_append_of_le hc hle, write_of_le hc hle]

/-! ### Parts -/

/-- **Writes parts one after another**, up to the first refusal; the number of parts that were taken
as a whole comes first. -/
def writeAll (s : Sink) : List (List UInt8) → Nat × Option Refusal × Sink
  | [] => (0, none, s)
  | part :: parts =>
      match s.write part with
      | (none, s') =>
          let (n, outcome) := s'.writeAll parts
          (n + 1, outcome)
      | (some refusal, s') => (0, some refusal, s')

theorem writeAll_cons_of_none {part : List UInt8} (h : s.write part = (none, s'))
    (parts : List (List UInt8)) :
    s.writeAll (part :: parts) = ((s'.writeAll parts).1 + 1, (s'.writeAll parts).2) := by
  rw [writeAll, h]

theorem writeAll_cons_of_some {part : List UInt8} {refusal : Refusal}
    (h : s.write part = (some refusal, s')) (parts : List (List UInt8)) :
    s.writeAll (part :: parts) = (0, some refusal, s') := by
  rw [writeAll, h]

/-- **A division into parts makes no difference.** -/
theorem writeAll_snd (s : Sink) (parts : List (List UInt8)) :
    (s.writeAll parts).2 = s.write parts.flatten := by
  induction parts generalizing s with
  | nil => rw [List.flatten_nil, write_nil, writeAll]
  | cons part parts ih =>
      rw [List.flatten_cons, write_append]
      rcases hw : s.write part with ⟨refusal, s'⟩
      cases refusal with
      | none => rw [writeAll_cons_of_none hw, ih]
      | some refusal => rw [writeAll_cons_of_some hw]

/-- The parts before the refused one are taken, and with it they are refused. -/
theorem writeAll_fst_of_refused {parts : List (List UInt8)} {refusal : Refusal}
    (h : (s.writeAll parts).2.1 = some refusal) :
    (s.writeAll parts).1 < parts.length ∧
      (s.write (parts.take (s.writeAll parts).1).flatten).1 = none ∧
      (s.write (parts.take ((s.writeAll parts).1 + 1)).flatten).1 = some refusal := by
  induction parts generalizing s with
  | nil => simp [writeAll] at h
  | cons part parts ih =>
      rcases hw : s.write part with ⟨o, s'⟩
      cases o with
      | none =>
          rw [writeAll_cons_of_none hw] at h ⊢
          obtain ⟨hlt, htaken, hrefused⟩ := ih h
          refine ⟨Nat.succ_lt_succ hlt, ?_, ?_⟩
          · rw [List.take_succ_cons, List.flatten_cons, write_append, hw]
            exact htaken
          · rw [List.take_succ_cons, List.flatten_cons, write_append, hw]
            exact hrefused
      | some r =>
          rw [writeAll_cons_of_some hw] at h ⊢
          refine ⟨Nat.zero_lt_succ _, ?_, ?_⟩
          · rw [List.take_zero, List.flatten_nil, write_nil]
          · rw [List.take_succ_cons, List.take_zero, List.flatten_cons, List.flatten_nil,
              List.append_nil, hw]
            exact h

/-! ### A bound -/

/-- An empty sink with a bound. -/
def limited (limit : Nat) (refusal : Refusal) : Sink := { capacity := some limit, refusal }

theorem write_limited_of_le {limit : Nat} {refusal : Refusal} (h : bytes.length ≤ limit) :
    (limited limit refusal).write bytes = (none, (limited limit refusal).append bytes) :=
  write_of_le rfl h

theorem write_limited_of_lt {limit : Nat} {refusal : Refusal} (h : limit < bytes.length) :
    (limited limit refusal).write bytes =
      (some refusal, (limited limit refusal).append (bytes.take limit)) :=
  write_of_lt rfl h

end Sink

/-- The part in which a bound on the bytes falls. -/
structure CutAt (parts : List (List UInt8)) (limit j : Nat) : Prop where
  lt_length : j < parts.length
  /-- The parts before the cut one are within the bound. -/
  before_le : (parts.take j).flatten.length ≤ limit
  /-- The parts up to the cut one, and with it, are beyond the bound. -/
  lt_with : limit < (parts.take (j + 1)).flatten.length

/-- More parts have no fewer bytes. -/
theorem length_flatten_take_le (parts : List (List UInt8)) {i j : Nat} (h : i ≤ j) :
    (parts.take i).flatten.length ≤ (parts.take j).flatten.length := by
  obtain ⟨more, hmore⟩ : parts.take i <+: parts.take j := List.take_prefix_take_left h
  rw [← hmore, List.flatten_append, List.length_append]
  exact Nat.le_add_right _ _

/-- A bound does not fall in a part and in one before it. -/
theorem CutAt.le {parts : List (List UInt8)} {limit i j : Nat} (hi : CutAt parts limit i)
    (hj : CutAt parts limit j) : j ≤ i := by
  refine Nat.le_of_not_lt ?_
  intro hlt
  have hle := length_flatten_take_le parts (Nat.succ_le_of_lt hlt)
  exact absurd (Nat.lt_of_lt_of_le hi.lt_with hle) (Nat.not_lt.2 hj.before_le)

/-- **A bound falls in one part only.** -/
theorem CutAt.unique {parts : List (List UInt8)} {limit i j : Nat} (hi : CutAt parts limit i)
    (hj : CutAt parts limit j) : i = j :=
  Nat.le_antisymm (hj.le hi) (hi.le hj)

/-- **A sink with a bound refuses the part in which the bound falls.** -/
theorem Sink.cutAt_writeAll {parts : List (List UInt8)} {limit : Nat} (refusal : Refusal)
    (h : limit < parts.flatten.length) :
    CutAt parts limit ((limited limit refusal).writeAll parts).1 := by
  have hrefused : ((limited limit refusal).writeAll parts).2.1 = some refusal := by
    rw [writeAll_snd, write_limited_of_lt h]
  obtain ⟨hlength, htaken, hcut⟩ := writeAll_fst_of_refused hrefused
  refine ⟨hlength, ?_, ?_⟩
  · refine Nat.le_of_not_lt ?_
    intro hlt
    rw [write_limited_of_lt hlt] at htaken
    exact absurd htaken (Option.some_ne_none refusal)
  · refine Nat.lt_of_not_le ?_
    intro hle
    rw [write_limited_of_le hle] at hcut
    exact absurd hcut (Option.some_ne_none refusal).symm

end StreamLexer
