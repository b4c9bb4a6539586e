/-
**Numbers written by digits.**

A run of decimal digits, the highest first, writes a number: each further digit makes the number
ten times as large and adds itself.  A long run is gathered in blocks, so that the long number met
so far is touched once for a block and not once for a digit.  Where large numbers all count alike,
a run is read up to a cap: once the number has reached the cap, further digits are passed over.

Main definitions:

* `StreamLexer.Digits.Blocks` — a number that is being gathered in blocks;
* `StreamLexer.Digits.value` — **the number that a run of digits writes**;
* `StreamLexer.Digits.cappedValue` — the number that a run of digits writes up to a cap.

Main results:

* `StreamLexer.Digits.value_eq_foldl` — gathering in blocks gives the same number as gathering
  digit by digit.
-/

set_option relaxedAutoImplicit false
set_option autoImplicit false

namespace StreamLexer.Digits

/-- A number with one more digit. -/
def append (n d : Nat) : Nat := 10 * n + d

theorem le_foldl_append (ds : List Nat) (n : Nat) : n ≤ ds.foldl append n := by
  induction ds generalizing n with
  | nil => exact Nat.le_refl n
  | cons d ds ih => exact Nat.le_trans (by simp only [append]; omega) (ih (append n d))

/-! ### Gathering in blocks -/

/-- A number that is being gathered: the digits of earlier blocks, and those of the last. -/
structure Blocks where
  /-- The number that the earlier blocks write. -/
  earlier : Nat
  /-- The number that the last block writes. -/
  last : Nat
  /-- Ten to the length of the last block. -/
  weight : Nat
deriving DecidableEq, Repr

namespace Blocks

/-- No digit yet. -/
def empty : Blocks := ⟨0, 0, 1⟩

/-- The number gathered so far. -/
def value (b : Blocks) : Nat := b.earlier * b.weight + b.last

/-- The weight at which a block is complete: a thousand digits. -/
def limit : Nat := Nat.pow 10 1000

/-- One more digit.  A complete block joins the earlier ones. -/
def push (b : Blocks) (d : Nat) : Blocks :=
  let b' : Blocks := { b with last := append b.last d, weight := 10 * b.weight }
  if b'.weight < limit then b' else ⟨b'.value, 0, 1⟩

theorem value_push (b : Blocks) (d : Nat) : (b.push d).value = append b.value d := by
  have h : b.earlier * (10 * b.weight) = 10 * (b.earlier * b.weight) := Nat.mul_left_comm _ _ _
  unfold push
  dsimp only
  split <;> simp only [value, append, h, Nat.mul_one, Nat.add_zero] <;> omega

theorem value_foldl_push (ds : List Nat) (b : Blocks) :
    (ds.foldl push b).value = ds.foldl append b.value := by
  induction ds generalizing b with
  | nil => rfl
  | cons d ds ih => rw [List.foldl_cons, List.foldl_cons, ih, value_push]

end Blocks

/-- **The number that a run of digits writes.** -/
def value (ds : List Nat) : Nat := (ds.foldl Blocks.push Blocks.empty).value

/-- Gathering in blocks gives the same number as gathering digit by digit. -/
theorem value_eq_foldl (ds : List Nat) : value ds = ds.foldl append 0 :=
  Blocks.value_foldl_push ds Blocks.empty

/-! ### Reading up to a cap -/

/-- A number below the cap with one more digit; a number that has reached the cap is kept. -/
def appendBelow (cap n d : Nat) : Nat := if n < cap then append n d else n

/-- **The number that a run of digits writes up to a cap**: once the number has reached the cap,
further digits are passed over. -/
def cappedValue (cap : Nat) (ds : List Nat) : Nat := ds.foldl (appendBelow cap) 0

end StreamLexer.Digits
