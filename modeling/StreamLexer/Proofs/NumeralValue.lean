/-
**The value of digits and points.**

A number of the lexical grammar is any arrangement of digits and points, and most of these are no
numerals.  Its value goes by the numeral at its head: digits with or without a point and further
digits, or a point and digits.  What is read of a text is the longest numeral there, and the value
is the double-precision value nearest to the number that it writes; what comes after it, a second
point and more, makes no difference.  A text that starts with no numeral is worth zero.

Main definitions:

* `StreamLexer.Grammar.Numeral` — **the numerals, and the number that each writes**;
* `StreamLexer.Grammar.LongestNumeral` — the longest numeral at the head of a text.

Main results:

* `StreamLexer.Grammar.LongestNumeral.unique` — the longest numeral is determined, and so is the
  number that it writes;
* `StreamLexer.Mantissa.exists_longestNumeral`, `StreamLexer.Mantissa.not_numeral_of_read?` — what
  is read at the head of a text is the longest numeral there, and nothing is read where there is
  none;
* `StreamLexer.isNearest_numberValue` — the value of a text is nearest to what its longest numeral
  writes;
* `StreamLexer.numberValue_iff_isNearest` — **the value of digits and points**.
-/

import StreamLexer.Proofs.LexicalGrammar
import StreamLexer.Proofs.NearestValue
import StreamLexer.Proofs.TokenShape

set_option relaxedAutoImplicit false
set_option autoImplicit false

namespace StreamLexer

/-! ### Numerals -/

namespace Grammar

/-- The natural number that a run of digits writes. -/
def digitsNumber (ds : List Char) : Nat := Nat.ofDigitChars 10 ds 0

/-- **The numerals, and the number that each writes**: digits; or digits, a point and digits, with a
digit on one side of the point at least. -/
inductive Numeral : List Char → ℚ → Prop
  | whole {ds : List Char} : ds ≠ [] → (∀ c ∈ ds, Digit c) → Numeral ds (digitsNumber ds)
  | pointed {ds fs : List Char} : ds ≠ [] ∨ fs ≠ [] → (∀ c ∈ ds, Digit c) → (∀ c ∈ fs, Digit c) →
      Numeral (ds ++ '.' :: fs) (digitsNumber ds + digitsNumber fs / 10 ^ fs.length)

/-- **The longest numeral at the head of a text**, and the number that it writes. -/
structure LongestNumeral (cs p : List Char) (q : ℚ) : Prop where
  atHead : p <+: cs
  numeral : Numeral p q
  length_le : ∀ p' q', p' <+: cs → Numeral p' q' → p'.length ≤ p.length

/-- A numeral is the longest one of itself. -/
theorem Numeral.longestNumeral {p : List Char} {q : ℚ} (h : Numeral p q) : LongestNumeral p p q :=
  ⟨List.prefix_rfl, h, fun _ _ hp' _ => hp'.length_le⟩

/-- A numeral at the head of a text is made of the digits there; or it goes on after all of them,
with the point that follows and digits after the point. -/
theorem Numeral.of_prefix {cs p : List Char} {q : ℚ} (h : Numeral p q) (hp : p <+: cs) :
    (p ≠ [] ∧ p <+: cs.takeWhile Char.isDigit) ∨
      ∃ fs rest, p = cs.takeWhile Char.isDigit ++ '.' :: fs ∧
        cs.dropWhile Char.isDigit = '.' :: rest ∧ fs <+: rest.takeWhile Char.isDigit ∧
        (cs.takeWhile Char.isDigit ≠ [] ∨ fs ≠ []) := by
  have hspan : ∀ {ds more : List Char}, (∀ c ∈ ds, Digit c) →
      ds <+: (ds ++ more).takeWhile Char.isDigit := by
    intro ds more hds
    rw [List.takeWhile_append_of_pos fun c hc => isDigit_iff.2 (hds c hc)]
    exact List.prefix_append _ _
  obtain ⟨more, rfl⟩ := hp
  cases h with
  | whole hne hds => exact Or.inl ⟨hne, hspan hds⟩
  | @pointed ds fs hne hds hfs =>
      obtain ⟨htake, hdrop⟩ :=
        span_digits_point (fun c hc => isDigit_iff.2 (hds c hc)) (fs ++ more)
      rw [List.append_assoc, List.cons_append, htake, hdrop]
      exact Or.inr ⟨fs, fs ++ more, rfl, rfl, hspan hfs, hne⟩

theorem digit_of_mem_takeWhile {cs : List Char} : ∀ c ∈ cs.takeWhile Char.isDigit, Digit c :=
  fun c hc => isDigit_iff.1 (List.all_eq_true.1 List.all_takeWhile c hc)

/-- Where a point follows the digits the longest numeral goes on after it. -/
theorem longestNumeral_of_point {cs rest : List Char}
    (h : cs.dropWhile Char.isDigit = '.' :: rest)
    (hne : cs.takeWhile Char.isDigit ≠ [] ∨ rest.takeWhile Char.isDigit ≠ []) :
    LongestNumeral cs (cs.takeWhile Char.isDigit ++ '.' :: rest.takeWhile Char.isDigit)
      (digitsNumber (cs.takeWhile Char.isDigit) + digitsNumber (rest.takeWhile Char.isDigit) /
        10 ^ (rest.takeWhile Char.isDigit).length) := by
  refine ⟨⟨rest.dropWhile Char.isDigit, ?_⟩,
    .pointed hne digit_of_mem_takeWhile digit_of_mem_takeWhile, ?_⟩
  · rw [List.append_assoc, List.cons_append, List.takeWhile_append_dropWhile, ← h,
      List.takeWhile_append_dropWhile]
  · intro p' q' hp' hnumeral
    rcases hnumeral.of_prefix hp' with ⟨_, hdigits⟩ | ⟨fs, rest', rfl, hrest', hfs, _⟩
    · exact Nat.le_trans hdigits.length_le (by simp)
    · obtain rfl := (List.cons.inj (h.symm.trans hrest')).2
      simpa using hfs.length_le

/-- Where no point follows the digits they are the longest numeral. -/
theorem longestNumeral_of_no_point {cs : List Char}
    (h : ∀ rest, cs.dropWhile Char.isDigit ≠ '.' :: rest) (hne : cs.takeWhile Char.isDigit ≠ []) :
    LongestNumeral cs (cs.takeWhile Char.isDigit) (digitsNumber (cs.takeWhile Char.isDigit)) := by
  refine ⟨⟨_, List.takeWhile_append_dropWhile⟩, .whole hne digit_of_mem_takeWhile, ?_⟩
  intro p' q' hp' hnumeral
  rcases hnumeral.of_prefix hp' with ⟨_, hdigits⟩ | ⟨_, rest', _, hrest', _⟩
  · exact hdigits.length_le
  · exact absurd hrest' (h rest')

/-- Digits end where a point comes. -/
theorem digits_point_inj {ds ds' fs fs' : List Char} (hds : ∀ c ∈ ds, Digit c)
    (hds' : ∀ c ∈ ds', Digit c) (h : ds ++ '.' :: fs = ds' ++ '.' :: fs') :
    ds = ds' ∧ fs = fs' := by
  have hspan := span_digits_point (fun c hc => isDigit_iff.2 (hds c hc)) fs
  have hspan' := span_digits_point (fun c hc => isDigit_iff.2 (hds' c hc)) fs'
  rw [h] at hspan
  exact ⟨hspan.1.symm.trans hspan'.1, (List.cons.inj (hspan.2.symm.trans hspan'.2)).2⟩

/-- **A numeral writes one number.** -/
theorem Numeral.unique {p : List Char} {q q' : ℚ} (h : Numeral p q) (h' : Numeral p q') :
    q = q' := by
  have hpoint : ∀ {ds fs : List Char}, ¬ ∀ c ∈ ds ++ '.' :: fs, Digit c := fun hall =>
    absurd (hall '.' (List.mem_append_right _ List.mem_cons_self)) (by decide)
  cases h with
  | whole _ hds =>
      generalize hp : p = p' at h'
      cases h' with
      | whole _ _ => rfl
      | pointed _ _ _ => exact absurd (hp ▸ hds) hpoint
  | @pointed ds fs _ hds _ =>
      generalize hp : ds ++ '.' :: fs = p' at h'
      cases h' with
      | whole _ hds' => exact absurd (hp ▸ hds') hpoint
      | pointed _ hds' _ =>
          obtain ⟨rfl, rfl⟩ := digits_point_inj hds hds' hp
          rfl

/-- **There is only one longest numeral at the head of a text.** -/
theorem LongestNumeral.unique {cs p p' : List Char} {q q' : ℚ} (h : LongestNumeral cs p q)
    (h' : LongestNumeral cs p' q') : p = p' ∧ q = q' := by
  have hlen : p.length = p'.length :=
    Nat.le_antisymm (h'.length_le p q h.atHead h.numeral) (h.length_le p' q' h'.atHead h'.numeral)
  obtain rfl : p = p' := List.IsPrefix.eq_of_length
    (List.prefix_of_prefix_length_le h.atHead h'.atHead (Nat.le_of_eq hlen)) hlen
  exact ⟨rfl, h.numeral.unique h'.numeral⟩

end Grammar

open Grammar

/-! ### What is read at the head of a text -/

theorem digitsValue_eq_digitsNumber (cs : List Char) : digitsValue cs = digitsNumber cs :=
  digitsValue_eq cs

namespace Mantissa

/-- The digits after the point count as a fraction. -/
theorem value_toDecimal_zero (m : Mantissa) : (m.toDecimal 0).value =
    digitsNumber m.whole + digitsNumber m.fraction / 10 ^ m.fraction.length := by
  rw [value_toDecimal, digitsValue_append, digitsValue_eq_digitsNumber, digitsValue_eq_digitsNumber,
    zero_sub, zpow_neg, zpow_natCast]
  push_cast
  field_simp

/-- What is read at the head of a text, by the digits there and what follows them. -/
theorem read?_of_point {cs rest : List Char} (h : cs.dropWhile Char.isDigit = '.' :: rest) :
    read? cs = if cs.takeWhile Char.isDigit = [] ∧ rest.takeWhile Char.isDigit = [] then none
      else some (⟨cs.takeWhile Char.isDigit, rest.takeWhile Char.isDigit⟩,
        rest.dropWhile Char.isDigit) := by
  simp [read?, h]

theorem read?_of_no_point {cs : List Char} (h : ∀ rest, cs.dropWhile Char.isDigit ≠ '.' :: rest) :
    read? cs = if cs.takeWhile Char.isDigit = [] then none
      else some (⟨cs.takeWhile Char.isDigit, []⟩, cs.dropWhile Char.isDigit) := by
  unfold read?
  split
  · next rest hrest => exact absurd hrest (h rest)
  · simp

/-- **What is read at the head of a text is the longest numeral there**, and what follows it is
left. -/
theorem exists_longestNumeral {cs rest : List Char} {m : Mantissa}
    (h : read? cs = some (m, rest)) :
    ∃ p, cs = p ++ rest ∧ LongestNumeral cs p (m.toDecimal 0).value := by
  have hcs := List.takeWhile_append_dropWhile (p := Char.isDigit) (l := cs)
  rw [value_toDecimal_zero]
  by_cases hpoint : ∃ after, cs.dropWhile Char.isDigit = '.' :: after
  · obtain ⟨after, hafter⟩ := hpoint
    rw [read?_of_point hafter] at h
    split at h
    · cases h
    · next hne =>
        obtain ⟨rfl, rfl⟩ := Prod.mk.inj (Option.some.inj h)
        refine ⟨_, ?_, longestNumeral_of_point hafter (not_and_or.1 hne)⟩
        rw [List.append_assoc, List.cons_append, List.takeWhile_append_dropWhile, ← hafter, hcs]
  · have hno : ∀ after, cs.dropWhile Char.isDigit ≠ '.' :: after := not_exists.1 hpoint
    rw [read?_of_no_point hno] at h
    split at h
    · cases h
    · next hne =>
        obtain ⟨rfl, rfl⟩ := Prod.mk.inj (Option.some.inj h)
        refine ⟨_, hcs.symm, ?_⟩
        simpa [digitsNumber] using longestNumeral_of_no_point hno hne

/-- **Nothing is read where there is no numeral.** -/
theorem not_numeral_of_read? {cs p : List Char} {q : ℚ} (h : read? cs = none) (hp : p <+: cs) :
    ¬ Numeral p q := by
  intro hnumeral
  rcases hnumeral.of_prefix hp with ⟨hne, hdigits⟩ | ⟨fs, rest, _, hrest, hfs, hne⟩
  · have hsome : cs.takeWhile Char.isDigit ≠ [] := fun h0 => hne (by simpa [h0] using hdigits)
    by_cases hpoint : ∃ after, cs.dropWhile Char.isDigit = '.' :: after
    · obtain ⟨after, hafter⟩ := hpoint
      simp [read?_of_point hafter, hsome] at h
    · simp [read?_of_no_point (not_exists.1 hpoint), hsome] at h
  · rw [read?_of_point hrest] at h
    have hempty : cs.takeWhile Char.isDigit = [] ∧ rest.takeWhile Char.isDigit = [] := by
      by_contra hsome
      rw [if_neg hsome] at h
      cases h
    rcases hne with hne | hne
    · exact hne hempty.1
    · exact hne (by simpa [hempty.2] using hfs)

end Mantissa

/-! ### The value of a text -/

theorem eq_nil_or_isNumberText {cs : List Char} (h : ∀ c ∈ cs, NumberPart c) :
    cs = [] ∨ IsNumberText cs := by
  by_cases h0 : cs = []
  · exact Or.inl h0
  · exact Or.inr ⟨h0, fun c hc => isNumberPart_iff.2 (h c hc)⟩

/-- No exponent is made of digits and points. -/
theorem readExponent?_of_numberPart {cs : List Char} (h : ∀ c ∈ cs, NumberPart c) :
    readExponent? cs = some 0 := by
  cases cs with
  | nil => rfl
  | cons c cs =>
      have hc : ¬ (decide (c = 'e') || decide (c = 'E')) = true := by
        intro hletter
        have hcases : c = 'e' ∨ c = 'E' := by simpa using hletter
        rcases hcases with rfl | rfl <;> exact absurd (h _ List.mem_cons_self) (by decide)
      exact if_neg hc

/-- Digits and points are read without a sign. -/
theorem readSign_of_numberPart {cs : List Char} (h : ∀ c ∈ cs, NumberPart c) :
    readSign cs = (false, cs) := by
  rcases eq_nil_or_isNumberText h with rfl | htext
  · rfl
  · exact htext.readSign_eq

/-- Digits and points spell no word for a value. -/
theorem wordValue_of_numberPart {cs : List Char} (h : ∀ c ∈ cs, NumberPart c) :
    wordValue cs = .zero := by
  rcases eq_nil_or_isNumberText h with rfl | htext
  · rfl
  · exact htext.wordValue_eq

section

variable {cs : List Char} (hcs : ∀ c ∈ cs, NumberPart c)

include hcs

theorem numberValue_of_read?_some {m : Mantissa} {rest : List Char}
    (h : Mantissa.read? cs = some (m, rest)) : numberValue cs = (m.toDecimal 0).toBinary64 := by
  obtain ⟨p, hp, _⟩ := Mantissa.exists_longestNumeral h
  have hrest : ∀ c ∈ rest, NumberPart c := fun c hc => hcs c (hp ▸ List.mem_append_right p hc)
  unfold numberValue
  rw [readSign_of_numberPart hcs]
  simp only [h, readExponent?_of_numberPart hrest]
  exact Binary64.withSign_toBinary64 _

theorem numberValue_of_read?_none (h : Mantissa.read? cs = none) : numberValue cs = .zero := by
  unfold numberValue
  rw [readSign_of_numberPart hcs]
  simp only [h]
  exact wordValue_of_numberPart hcs

/-- **The value of digits and points is nearest to what their longest numeral writes.** -/
theorem isNearest_numberValue {p : List Char} {q : ℚ} (h : LongestNumeral cs p q) :
    Binary64.IsNearest q (numberValue cs) := by
  cases hread : Mantissa.read? cs with
  | none => exact absurd h.numeral (Mantissa.not_numeral_of_read? hread h.atHead)
  | some parts =>
      obtain ⟨m, rest⟩ := parts
      obtain ⟨p', _, hlongest⟩ := Mantissa.exists_longestNumeral hread
      rw [numberValue_of_read?_some hcs hread, (h.unique hlongest).2]
      exact Decimal.isNearest_toBinary64 _

end

/-- **The value of digits and points.**  If there is a numeral at the head of the text then there is
a longest one, and the value of the text is that of this numeral alone, the one that is nearest to
the number that it writes.  If there is none the value is zero. -/
theorem numberValue_iff_isNearest (cs : List Char) (hcs : ∀ c ∈ cs, NumberPart c) :
    (∀ p q, LongestNumeral cs p q →
      numberValue cs = numberValue p ∧ ∀ x, numberValue cs = x ↔ Binary64.IsNearest q x) ∧
    ((∃ p q, p <+: cs ∧ Numeral p q) → ∃ p q, LongestNumeral cs p q) ∧
    ((∀ p q, p <+: cs → ¬ Numeral p q) → numberValue cs = .zero) := by
  refine ⟨?_, ?_, ?_⟩
  · intro p q h
    have hnearest := isNearest_numberValue hcs h
    have hp : ∀ c ∈ p, NumberPart c := fun c hc => hcs c (h.atHead.subset hc)
    refine ⟨hnearest.unique (isNearest_numberValue hp h.numeral.longestNumeral), fun x => ?_⟩
    exact ⟨fun hx => hx ▸ hnearest, fun hx => hnearest.unique hx⟩
  · rintro ⟨p, q, hp, hnumeral⟩
    cases hread : Mantissa.read? cs with
    | none => exact absurd hnumeral (Mantissa.not_numeral_of_read? hread hp)
    | some parts =>
        obtain ⟨p', _, hlongest⟩ := Mantissa.exists_longestNumeral hread
        exact ⟨p', _, hlongest⟩
  · intro hno
    cases hread : Mantissa.read? cs with
    | none => exact numberValue_of_read?_none hcs hread
    | some parts =>
        obtain ⟨p, _, hlongest⟩ := Mantissa.exists_longestNumeral hread
        exact absurd hlongest.numeral (hno p _ hlongest.atHead)

/-- Halfway between two values, with a second point after the numeral: the even one is taken. -/
theorem numberValue_iff_isNearest_at_tie :
    LongestNumeral "9007199254740993..5".toList "9007199254740993.".toList 9007199254740993 ∧
      Binary64.IsNearest 9007199254740993 (.ofBits 0x4340000000000000) := by
  have hparts : ∀ c ∈ "9007199254740993..5".toList, NumberPart c := fun c hc =>
    isNumberPart_iff.1 (List.all_eq_true.1 (by decide +kernel) c hc)
  have hread : Mantissa.read? "9007199254740993..5".toList =
      some (⟨"9007199254740993".toList, []⟩, ".5".toList) := by decide +kernel
  have hlongest : LongestNumeral "9007199254740993..5".toList "9007199254740993.".toList
      9007199254740993 := by
    obtain ⟨p, hp, h⟩ := Mantissa.exists_longestNumeral hread
    have hsplit : "9007199254740993..5".toList = "9007199254740993.".toList ++ ".5".toList := by
      decide +kernel
    have hnumber : digitsNumber "9007199254740993".toList = 9007199254740993 := by decide +kernel
    rw [hsplit] at hp
    rw [Mantissa.value_toDecimal_zero, hnumber] at h
    rw [List.append_cancel_right hp]
    simpa [digitsNumber] using h
  obtain ⟨_, hvalue⟩ := (numberValue_iff_isNearest _ hparts).1 _ _ hlongest
  exact ⟨hlongest, (hvalue _).1 (by decide +kernel)⟩

end StreamLexer
