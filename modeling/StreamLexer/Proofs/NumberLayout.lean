/-
**The layout of numbers.**

A decimal is laid out as digits, with a point among them or zeros about them, or with a power of ten
after them.  Whatever the layout, the digits before and after the point and the power of ten make up
the same number, so who reads the text by the rules of numerals has the decimal again, and the value
that it was chosen for.

Main definitions:

* `StreamLexer.Mantissa.text`, `StreamLexer.Mantissa.WellFormed` — digits with or without a point,
  and no zero too many in front;
* `StreamLexer.Decimal.LaidOut` — the texts of a decimal without an exponent;
* `StreamLexer.Binary64.magnitudeChars` — a value in running text, its sign aside.

Main results:

* `StreamLexer.Decimal.laidOut_positional`, `StreamLexer.Decimal.exists_scientific` — **the layouts
  of a decimal**;
* `StreamLexer.Binary64.numberValue_magnitudeChars` — what is written of a magnitude is read as it;
* `StreamLexer.Binary64.text_injective` — **different values have different texts**.
-/

import StreamLexer.Decimal.Layout
import StreamLexer.Decimal.Numeral
import StreamLexer.Proofs.ShortestDecimal

set_option relaxedAutoImplicit false
set_option autoImplicit false

namespace StreamLexer

/-! ### Runs of digits -/

theorem digitsValue_eq (cs : List Char) : digitsValue cs = Nat.ofDigitChars 10 cs 0 := by
  rw [digitsValue, Digits.value_eq_foldl, List.foldl_map]
  rfl

theorem digitsValue_append (cs ds : List Char) :
    digitsValue (cs ++ ds) = 10 ^ ds.length * digitsValue cs + digitsValue ds := by
  rw [digitsValue_eq, Nat.ofDigitChars_append, Nat.ofDigitChars_eq_ofDigitChars_zero,
    ← digitsValue_eq, ← digitsValue_eq]

@[simp] theorem digitsValue_zeros (n : Nat) : digitsValue (List.replicate n '0') = 0 := by
  rw [digitsValue_eq, Nat.ofDigitChars_replicate_zero, Nat.mul_zero]

@[simp] theorem digitsValue_toDigits (n : Nat) : digitsValue (Nat.toDigits 10 n) = n := by
  rw [digitsValue_eq, Nat.ofDigitChars_ten_toDigits]

/-- The first digit of a number is no zero, unless the number is zero. -/
theorem head?_toDigits_ne {n : Nat} (h : n ≠ 0) : (Nat.toDigits 10 n).head? ≠ some '0' := by
  induction n using Nat.strongRecOn with
  | ind n ih =>
      rw [Nat.toDigits_eq_if (by decide)]
      split
      · simp [h]
      · next hge =>
          have hq : n / 10 ≠ 0 := by omega
          rw [List.head?_append_of_ne_nil _ Nat.toDigits_ne_nil]
          exact ih (n / 10) (by omega) hq

/-- A run of digits ends where something else comes. -/
theorem span_digits {ds rest : List Char} (hds : ∀ c ∈ ds, c.isDigit = true)
    (hrest : ∀ c ∈ rest.head?, c.isDigit = false) :
    (ds ++ rest).takeWhile Char.isDigit = ds ∧ (ds ++ rest).dropWhile Char.isDigit = rest := by
  rw [List.takeWhile_append_of_pos hds, List.dropWhile_append_of_pos hds]
  cases rest with
  | nil => simp
  | cons c rest => simp [hrest c rfl]

/-- A run of digits ends at a point. -/
theorem span_digits_point {ds : List Char} (hds : ∀ c ∈ ds, c.isDigit = true) (rest : List Char) :
    (ds ++ '.' :: rest).takeWhile Char.isDigit = ds ∧
      (ds ++ '.' :: rest).dropWhile Char.isDigit = '.' :: rest := by
  refine span_digits hds ?_
  intro c hc
  obtain rfl : '.' = c := Option.some.inj hc
  decide

/-! ### Mantissas -/

namespace Mantissa

/-- The digits before the point, and the point and the digits after it if there are any. -/
def text (m : Mantissa) : List Char :=
  m.whole ++ if m.fraction = [] then [] else '.' :: m.fraction

/-- There are digits before the point, and no zero in front of others. -/
structure WellFormed (m : Mantissa) : Prop where
  whole_ne : m.whole ≠ []
  isDigit_whole : ∀ c ∈ m.whole, c.isDigit = true
  isDigit_fraction : ∀ c ∈ m.fraction, c.isDigit = true
  whole_head : m.whole = ['0'] ∨ m.whole.head? ≠ some '0'

theorem value_toDecimal (m : Mantissa) (scale : Int) :
    (m.toDecimal scale).value =
      digitsValue (m.whole ++ m.fraction) * 10 ^ (scale - m.fraction.length) := rfl

/-- A mantissa is read up to the character after it. -/
theorem read?_text {m : Mantissa} (h : m.WellFormed) {rest : List Char}
    (hrest : ∀ c ∈ rest.head?, c.isDigit = false ∧ c ≠ '.') :
    read? (m.text ++ rest) = some (m, rest) := by
  have hdigit : ∀ c ∈ rest.head?, c.isDigit = false := fun c hc => (hrest c hc).1
  have hwhole : m.whole.isEmpty = false := by
    simpa using h.whole_ne
  unfold text
  split
  · next hf =>
      obtain ⟨htake, hdrop⟩ := span_digits h.isDigit_whole hdigit
      have hm : m = ⟨m.whole, []⟩ := by rw [← hf]
      rw [List.append_nil, read?, htake, hdrop]
      split
      · next hpoint => exact absurd rfl (hrest '.' rfl).2
      · rw [hwhole, ← hm]
        rfl
  · next hf =>
      obtain ⟨htake, hdrop⟩ := span_digits_point h.isDigit_whole (m.fraction ++ rest)
      obtain ⟨htake', hdrop'⟩ := span_digits h.isDigit_fraction hdigit
      rw [List.append_assoc, List.cons_append, read?, htake, hdrop]
      simp only [htake', hdrop', hwhole, Bool.false_and, Bool.false_eq_true, if_false]

end Mantissa

/-! ### The layouts of a decimal -/

namespace Decimal

variable {d : Decimal}

theorem isDigit_digitChars (d : Decimal) : ∀ c ∈ d.digitChars, c.isDigit = true :=
  fun _ hc => Nat.isDigit_of_mem_toDigits (by decide) (by decide) hc

theorem digitChars_ne_nil (d : Decimal) : d.digitChars ≠ [] := Nat.toDigits_ne_nil

theorem digitsValue_digitChars (d : Decimal) : digitsValue d.digitChars = d.digits :=
  digitsValue_toDigits d.digits

theorem isDigit_zeros {n : Nat} : ∀ c ∈ List.replicate n '0', c.isDigit = true := by
  intro c hc
  rw [List.eq_of_mem_replicate hc]
  rfl

theorem head?_digitChars_ne (h0 : d.digits ≠ 0) : d.digitChars.head? ≠ some '0' :=
  head?_toDigits_ne h0

/-- A text of a decimal without an exponent: a mantissa of the same value, and a point in it only if
the last digit is after the point. -/
def LaidOut (d : Decimal) (cs : List Char) : Prop :=
  ∃ m : Mantissa, cs = m.text ∧ m.WellFormed ∧ (m.toDecimal 0).value = d.value ∧
    (m.fraction = [] ↔ 0 ≤ d.exponent)

/-- Zeros after the digits. -/
theorem laidOut_whole (h0 : d.digits ≠ 0) (h : 0 ≤ d.exponent) :
    d.LaidOut (d.digitChars ++ List.replicate d.exponent.toNat '0') := by
  have hne := d.digitChars_ne_nil
  obtain ⟨e, he⟩ : ∃ e : Nat, d.exponent = e := Int.eq_ofNat_of_zero_le h
  refine ⟨⟨d.digitChars ++ List.replicate d.exponent.toNat '0', []⟩, ?_, ⟨?_, ?_, ?_, ?_⟩, ?_, ?_⟩
  · simp [Mantissa.text]
  · simp [hne]
  · intro c hc
    rcases List.mem_append.1 hc with hc | hc
    · exact d.isDigit_digitChars c hc
    · exact isDigit_zeros c hc
  · intro c hc
    exact absurd hc List.not_mem_nil
  · right
    rw [List.head?_append_of_ne_nil _ hne]
    exact head?_digitChars_ne h0
  · rw [Mantissa.value_toDecimal, List.append_nil, digitsValue_append, digitsValue_zeros,
      List.length_replicate, d.digitsValue_digitChars, value, he]
    simp [mul_comm]
  · simp [h]

/-- The point among the digits. -/
theorem laidOut_among {n : Nat} (h0 : d.digits ≠ 0) (hn : d.exponent + d.digitChars.length = n)
    (hpos : 0 < n) (hlt : n < d.digitChars.length) :
    d.LaidOut (d.digitChars.take n ++ '.' :: d.digitChars.drop n) := by
  have hfraction : d.digitChars.drop n ≠ [] := by simpa using hlt
  refine ⟨⟨d.digitChars.take n, d.digitChars.drop n⟩, ?_, ⟨?_, ?_, ?_, ?_⟩, ?_, ?_⟩
  · simp [Mantissa.text, hfraction]
  · simp [d.digitChars_ne_nil, Nat.ne_of_gt hpos]
  · intro c hc
    exact d.isDigit_digitChars c (List.mem_of_mem_take hc)
  · intro c hc
    exact d.isDigit_digitChars c (List.mem_of_mem_drop hc)
  · right
    rw [List.head?_take, if_neg (Nat.ne_of_gt hpos)]
    exact head?_digitChars_ne h0
  · have hexp : (0 : Int) - (d.digitChars.length - n : Nat) = d.exponent := by omega
    rw [Mantissa.value_toDecimal, List.take_append_drop, d.digitsValue_digitChars,
      List.length_drop, hexp, value]
  · simp only [hfraction, false_iff]
    omega

/-- Zeros between the point and the digits. -/
theorem laidOut_after {n : Nat} (hn : d.exponent + d.digitChars.length = -n) :
    d.LaidOut ('0' :: '.' :: List.replicate n '0' ++ d.digitChars) := by
  have hne := d.digitChars_ne_nil
  have hfraction : List.replicate n '0' ++ d.digitChars ≠ [] := by simp [hne]
  refine ⟨⟨['0'], List.replicate n '0' ++ d.digitChars⟩, ?_, ⟨?_, ?_, ?_, ?_⟩, ?_, ?_⟩
  · simp [Mantissa.text, hfraction]
  · simp
  · intro c hc
    rw [List.mem_singleton.1 hc]
    rfl
  · intro c hc
    rcases List.mem_append.1 hc with hc | hc
    · exact isDigit_zeros c hc
    · exact d.isDigit_digitChars c hc
  · exact Or.inl rfl
  · have hexp : (0 : Int) - (n + d.digitChars.length : Nat) = d.exponent := by omega
    have hzero : digitsValue ['0'] = 0 := digitsValue_zeros 1
    rw [Mantissa.value_toDecimal, digitsValue_append, digitsValue_append, hzero,
      digitsValue_zeros, Nat.mul_zero, Nat.mul_zero, Nat.zero_add, Nat.zero_add,
      d.digitsValue_digitChars, List.length_append, List.length_replicate, hexp, value]
  · have hlength : 0 < d.digitChars.length := List.length_pos_iff.2 hne
    simp only [hfraction, false_iff]
    omega

/-- **The positional layout**: no exponent, and a point only if the last digit is after it. -/
theorem laidOut_positional (h0 : d.digits ≠ 0) : d.LaidOut d.positional := by
  unfold positional
  dsimp only
  split
  · next hexponent => exact laidOut_whole h0 hexponent
  · next hexponent =>
      split
      · next hwhole =>
          obtain ⟨n, hn⟩ : ∃ n : Nat, d.exponent + d.digitChars.length = n :=
            Int.eq_ofNat_of_zero_le (Int.le_of_lt hwhole)
          rw [hn, Int.toNat_natCast]
          exact laidOut_among h0 hn (by omega) (by omega)
      · next hwhole =>
          obtain ⟨n, hn⟩ : ∃ n : Nat, -(d.exponent + d.digitChars.length) = n :=
            Int.eq_ofNat_of_zero_le (by omega)
          rw [hn, Int.toNat_natCast]
          exact laidOut_after (by omega)

/-- **The layout with an exponent**: one digit before the point. -/
theorem exists_scientific (h0 : d.digits ≠ 0) :
    ∃ m : Mantissa, d.scientific = m.text ++ 'e' :: (if d.leadingExponent < 0 then '-' else '+') ::
        Nat.toDigits 10 d.leadingExponent.natAbs ∧
      m.WellFormed ∧ (m.toDecimal d.leadingExponent).value = d.value := by
  have hdigit := d.isDigit_digitChars
  have hhead := head?_digitChars_ne h0
  have hvalue := d.digitsValue_digitChars
  unfold scientific leadingExponent
  dsimp only
  rcases hds : d.digitChars with _ | ⟨c, cs⟩
  · exact absurd hds d.digitChars_ne_nil
  · rw [hds] at hdigit hhead hvalue
    have hexp : d.exponent + (c :: cs).length - 1 - cs.length = d.exponent := by
      rw [List.length_cons]
      omega
    refine ⟨⟨[c], cs⟩, ?_, ⟨?_, ?_, ?_, ?_⟩, ?_⟩
    · cases cs <;> simp [Mantissa.text]
    · simp
    · intro c' hc'
      exact hdigit c' (by simp_all)
    · intro c' hc'
      exact hdigit c' (List.mem_cons_of_mem c hc')
    · exact Or.inr hhead
    · rw [Mantissa.value_toDecimal, hexp, List.singleton_append, hvalue, value]

end Decimal

/-! ### What is written is read back -/

namespace Mantissa

theorem WellFormed.exists_text_eq {m : Mantissa} (h : m.WellFormed) :
    ∃ c cs, m.text = c :: cs ∧ c.isDigit = true := by
  obtain ⟨c, cs, hwhole⟩ := List.exists_cons_of_ne_nil h.whole_ne
  have hc : c.isDigit = true := h.isDigit_whole c (hwhole ▸ List.mem_cons_self)
  rw [text, hwhole]
  exact ⟨c, _, List.cons_append, hc⟩

/-- A mantissa consists of digits and points. -/
theorem WellFormed.of_mem_text {m : Mantissa} (h : m.WellFormed) {c : Char} (hc : c ∈ m.text) :
    c.isDigit = true ∨ c = '.' := by
  unfold text at hc
  rcases List.mem_append.1 hc with hc | hc
  · exact Or.inl (h.isDigit_whole c hc)
  · split at hc
    · exact absurd hc List.not_mem_nil
    · rcases List.mem_cons.1 hc with rfl | hc
      · exact Or.inr rfl
      · exact Or.inl (h.isDigit_fraction c hc)

end Mantissa

theorem readSign_of_digit {c : Char} (h : c.isDigit = true) (cs : List Char) :
    readSign (c :: cs) = (false, c :: cs) := by
  unfold readSign
  split
  · next heq =>
      obtain ⟨rfl, _⟩ := List.cons.inj heq
      exact absurd h (by decide)
  · next heq =>
      obtain ⟨rfl, _⟩ := List.cons.inj heq
      exact absurd h (by decide)
  · rfl

namespace Binary64

theorem withSign_toBinary64 (d : Decimal) : d.toBinary64.withSign false = d.toBinary64 := by
  rw [Decimal.toBinary64_eq_ofRatio]
  rfl

/-- **A mantissa alone is read as the value nearest to it.** -/
theorem numberValue_text {m : Mantissa} (h : m.WellFormed) :
    numberValue m.text = (m.toDecimal 0).toBinary64 := by
  obtain ⟨c, cs, htext, hc⟩ := h.exists_text_eq
  have hread : Mantissa.read? m.text = some (m, []) := by
    rw [← List.append_nil m.text]
    exact Mantissa.read?_text h fun c hc => by cases hc
  have hsign : readSign m.text = (false, m.text) := by
    rw [htext]
    exact readSign_of_digit hc cs
  unfold numberValue
  rw [hsign]
  simp only [hread, readExponent?]
  exact withSign_toBinary64 _

variable {m : Nat}

/-- Only zero is written with the digit zero alone. -/
theorem digits_shortest_ne (tie : Tie) (h0 : m ≠ 0) (h : m ≤ infinityMagnitude) :
    (shortest tie m).digits ≠ 0 := by
  intro hdigits
  have hzero : (shortest tie m).toBinary64 = zero := if_pos hdigits
  rw [toBinary64_shortest tie h] at hzero
  exact h0 (congrArg Binary64.magnitude hzero)

/-- **A value in running text, its sign aside.** -/
def magnitudeChars (m : Nat) : List Char :=
  if m < infinityMagnitude then
    if m = 0 then ['0'] else (shortest .up m).positional
  else ['i', 'n', 'f']

theorem text_eq {x : Binary64} (h : x.isNaN = false) :
    x.text = String.ofList (x.signChars ++ magnitudeChars x.magnitude) := by
  unfold text magnitudeChars
  rw [if_neg (Bool.eq_false_iff.1 h)]
  by_cases hfinite : x.magnitude < infinityMagnitude <;> simp [isFinite, hfinite]

/-- The text of a finite magnitude is a mantissa. -/
theorem exists_magnitudeChars (h : m < infinityMagnitude) :
    ∃ mantissa : Mantissa, magnitudeChars m = mantissa.text ∧ mantissa.WellFormed ∧
      (mantissa.toDecimal 0).toBinary64 = ofMagnitude m (Nat.le_of_lt h) := by
  unfold magnitudeChars
  rw [if_pos h]
  split
  · next h0 =>
      subst h0
      refine ⟨⟨['0'], []⟩, rfl, ⟨by simp, by simp, by simp, Or.inl rfl⟩, ?_⟩
      have hdigits : digitsValue (['0'] ++ []) = 0 := digitsValue_zeros 1
      rw [Mantissa.toDecimal, hdigits]
      rfl
  · next h0 =>
      obtain ⟨mantissa, htext, hwell, hvalue, _⟩ :=
        Decimal.laidOut_positional (digits_shortest_ne .up h0 (Nat.le_of_lt h))
      refine ⟨mantissa, htext, hwell, ?_⟩
      rw [Decimal.toBinary64_congr hvalue, toBinary64_shortest]

/-- **What is written of a magnitude is read as it.** -/
theorem numberValue_magnitudeChars (h : m ≤ infinityMagnitude) :
    numberValue (magnitudeChars m) = ofMagnitude m h := by
  rcases Nat.lt_or_eq_of_le h with hlt | rfl
  · obtain ⟨mantissa, htext, hwell, hvalue⟩ := exists_magnitudeChars hlt
    rw [htext, numberValue_text hwell, hvalue]
  · have hchars : magnitudeChars infinityMagnitude = ['i', 'n', 'f'] := if_neg (Nat.lt_irrefl _)
    rw [hchars]
    rfl

/-- A magnitude is written without a sign and on one line. -/
theorem of_mem_magnitudeChars {c : Char} (hc : c ∈ magnitudeChars m) : c ≠ '-' ∧ c ≠ '\n' := by
  by_cases h : m < infinityMagnitude
  · obtain ⟨mantissa, htext, hwell, _⟩ := exists_magnitudeChars h
    rw [htext] at hc
    rcases hwell.of_mem_text hc with hdigit | rfl
    · constructor <;> rintro rfl <;> exact absurd hdigit (by decide)
    · decide
  · rw [magnitudeChars, if_neg h] at hc
    have hall : ∀ c ∈ ['i', 'n', 'f'], c ≠ '-' ∧ c ≠ '\n' := by simp
    exact hall c hc

theorem magnitude_le_of_not_isNaN {x : Binary64} (h : x.isNaN = false) :
    x.magnitude ≤ infinityMagnitude := by
  simpa [isNaN] using h

/-- **The text of a magnitude tells it.** -/
theorem magnitudeChars_injective {n : Nat} (hm : m ≤ infinityMagnitude) (hn : n ≤ infinityMagnitude)
    (h : magnitudeChars m = magnitudeChars n) : m = n := by
  have hvalues := congrArg numberValue h
  rw [numberValue_magnitudeChars hm, numberValue_magnitudeChars hn] at hvalues
  exact congrArg Binary64.magnitude hvalues

/-- A sign at the front is no part of the magnitude. -/
theorem sign_ne_magnitudeChars (cs : List Char) : '-' :: cs ≠ magnitudeChars m := by
  intro h
  have hmem : '-' ∈ magnitudeChars m := h ▸ List.mem_cons_self
  exact (of_mem_magnitudeChars hmem).1 rfl

/-- **Different values have different texts.** -/
theorem text_injective {x y : Binary64} (hx : x.isNaN = false) (hy : y.isNaN = false)
    (h : x.text = y.text) : x = y := by
  rw [text_eq hx, text_eq hy, String.ofList_inj] at h
  have hmagnitude := magnitudeChars_injective (magnitude_le_of_not_isNaN hx)
    (magnitude_le_of_not_isNaN hy)
  obtain ⟨negative, m, hm⟩ := x
  obtain ⟨negative', m', hm'⟩ := y
  cases negative <;> cases negative'
  · obtain rfl : m = m' := hmagnitude h
    rfl
  · exact absurd h.symm (sign_ne_magnitudeChars _)
  · exact absurd h (sign_ne_magnitudeChars _)
  · obtain rfl : m = m' := hmagnitude (List.cons.inj h).2
    rfl

/-- A value is written on one line. -/
theorem newline_not_mem_text {x : Binary64} (h : x.isNaN = false) : '\n' ∉ x.text.toList := by
  rw [text_eq h, String.toList_ofList]
  intro hmem
  rcases List.mem_append.1 hmem with hmem | hmem
  · unfold signChars at hmem
    split at hmem <;> simp at hmem
  · exact (of_mem_magnitudeChars hmem).2 rfl

end Binary64

end StreamLexer
