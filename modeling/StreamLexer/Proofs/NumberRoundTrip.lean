/-
**Printed numbers are scanned as themselves.**

A text of digits and points is one number for the scanner, whatever its length, and nothing is left
of it.  The text of a finite value without a sign is such a text: it is laid out without an
exponent, so that neither a letter nor a sign splits it, and it has one point at most.  Its value is
the value that it was printed for, zero, the subnormals and the largest finite value included.

Main results:

* `StreamLexer.tokenize_numberText` — digits and points are one number;
* `StreamLexer.Mantissa.WellFormed.count_point_le` — a mantissa has one point at most;
* `StreamLexer.tokenize_printed` — **a printed number is scanned as itself**.
-/

import StreamLexer.Proofs.LexicalGrammar
import StreamLexer.Proofs.NumberLayout
import StreamLexer.Token.Render

set_option relaxedAutoImplicit false
set_option autoImplicit false

namespace StreamLexer

open Grammar

/-- **Digits and points are one number.** -/
theorem tokenize_numberText {cs : List Char} (hne : cs ≠ []) (h : ∀ c ∈ cs, NumberPart c) :
    tokenize (String.ofList cs) = [.number (numberValue cs)] := by
  obtain ⟨c, cs, rfl⟩ := List.exists_cons_of_ne_nil hne
  have hfits : Segment.FitsBefore [] ⟨.number, c :: cs⟩ := .number (h c List.mem_cons_self)
    (fun d hd => h d (List.mem_cons_of_mem c hd)) (fun d hd => by cases hd)
  have htokens := hfits.tokens_append
  rw [List.append_nil, Scan.tokens_nil] at htokens
  rw [tokenize_eq_tokens, String.toList_ofList, htokens]
  rfl

/-- A mantissa has one point at most. -/
theorem Mantissa.WellFormed.count_point_le {m : Mantissa} (h : m.WellFormed) :
    m.text.count '.' ≤ 1 := by
  have hdigits : ∀ {ds : List Char}, (∀ c ∈ ds, c.isDigit = true) → ds.count '.' = 0 :=
    fun hds => List.count_eq_zero.2 fun hmem => absurd (hds '.' hmem) (by decide)
  unfold text
  rw [List.count_append, hdigits h.isDigit_whole, Nat.zero_add]
  split
  · exact Nat.zero_le 1
  · rw [List.count_cons_self, hdigits h.isDigit_fraction]

/-- **A printed number is scanned as itself**: what is printed of a finite value without a sign is
digits, with one point at most, and as a text of its own it is that number and no other token. -/
theorem tokenize_printed (x : Binary64) (hfinite : x.isFinite = true) (hsign : x.negative = false) :
    ∃ digits : String, (Token.number x).text = "number " ++ digits ∧ digits ≠ "" ∧
      (∀ c ∈ digits.toList, NumberPart c) ∧ digits.toList.count '.' ≤ 1 ∧
      tokenize digits = [.number x] := by
  have hlt : x.magnitude < Binary64.infinityMagnitude := of_decide_eq_true hfinite
  have hle := Nat.le_of_lt hlt
  have hchars : x.text = String.ofList (Binary64.magnitudeChars x.magnitude) := by
    rw [Binary64.text_eq (decide_eq_false (Nat.not_lt.2 hle)), Binary64.signChars, hsign]
    rfl
  obtain ⟨m, hm, hwell, _⟩ := Binary64.exists_magnitudeChars hlt
  have hparts : ∀ c ∈ m.text, NumberPart c := fun c hc => by
    rcases hwell.of_mem_text hc with hdigit | rfl
    · exact Or.inl (isDigit_iff.1 hdigit)
    · exact Or.inr rfl
  obtain ⟨c, cs, hcons, _⟩ := hwell.exists_text_eq
  have hne : m.text ≠ [] := by simp [hcons]
  have hvalue : numberValue m.text = x := by
    rw [← hm, Binary64.numberValue_magnitudeChars hle]
    exact (Binary64.eq_ofMagnitude hsign hle).symm
  refine ⟨x.text, rfl, ?_, ?_, ?_, ?_⟩
  · rw [hchars, hm]
    simpa using hne
  · rwa [hchars, hm, String.toList_ofList]
  · rw [hchars, hm, String.toList_ofList]
    exact hwell.count_point_le
  · rw [hchars, hm, tokenize_numberText hne hparts, hvalue]

/-- The least value there is, which is printed with hundreds of zeros after the point. -/
theorem tokenize_printed_least : ∃ digits : String,
    (Token.number (.ofBits 1)).text = "number " ++ digits ∧ digits ≠ "" ∧
      (∀ c ∈ digits.toList, NumberPart c) ∧ digits.toList.count '.' ≤ 1 ∧
      tokenize digits = [.number (.ofBits 1)] :=
  tokenize_printed (.ofBits 1) (by decide) (by decide)

end StreamLexer
