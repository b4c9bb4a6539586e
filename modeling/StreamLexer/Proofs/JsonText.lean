/-
**Strings and numbers of a data line.**

A text is written between quotes with the characters escaped that may not stand for themselves, and
a finite number with a point or an exponent in any case.  By the rules of JSON the string is the
text again, and the number is one whose nearest double-precision value is the number that was
written, the sign of a zero included.  Neither has a control character in it.

Main definitions:

* `StreamLexer.Json.Printable` — no character of a text is a control character.

Main results:

* `StreamLexer.Json.charText_escapeChar`, `StreamLexer.Json.reads_quote` — **a string is read as the
  text between its quotes**;
* `StreamLexer.Binary64.exists_literal_dataText` — **a number is read as the value it was written
  for**;
* `StreamLexer.Json.StringText.printable`, `StreamLexer.Json.Literal.WellFormed.printable_text` —
  neither has a control character in it.
-/

import StreamLexer.Json.Quoted
import StreamLexer.Proofs.JsonGrammar

set_option relaxedAutoImplicit false
set_option autoImplicit false

namespace StreamLexer

namespace Json

/-! ### Strings -/

/-- A letter stands for the character that it was chosen for. -/
theorem letterEscape?_of_escapeLetter? {c l : Char} (h : escapeLetter? c = some l) :
    letterEscape? l = some c := by
  unfold escapeLetter? at h
  split at h <;> cases h <;> rfl

/-- A character without a letter is neither a quote nor a backslash. -/
theorem ne_of_escapeLetter?_eq_none {c : Char} (h : escapeLetter? c = none) :
    c ≠ '"' ∧ c ≠ '\\' := by
  constructor
  · rintro rfl
    cases h
  · rintro rfl
    cases h

theorem hexDigitValue?_hexDigit {n : Nat} (h : n < 16) : hexDigitValue? (hexDigit n) = some n := by
  have hall : ∀ n < 16, hexDigitValue? (hexDigit n) = some n := by decide
  exact hall n h

/-- The digits of a control character write its code point. -/
theorem hexUnit_control {n : Nat} (h : n < 0x20) :
    HexUnit ['0', '0', hexDigit (n / 16), hexDigit (n % 16)] n := by
  have hzero : hexDigitValue? '0' = some 0 := rfl
  have hdigits := HexUnit.digits hzero hzero
    (hexDigitValue?_hexDigit (n := n / 16) (by omega))
    (hexDigitValue?_hexDigit (n := n % 16) (by omega))
  have hn : 0x1000 * 0 + 0x100 * 0 + 0x10 * (n / 16) + n % 16 = n := by omega
  rwa [hn] at hdigits

/-- **A character is read as itself.** -/
theorem charText_escapeChar (c : Char) : CharText (escapeChar c) c := by
  unfold escapeChar
  cases hletter : escapeLetter? c with
  | some l => exact .letter (letterEscape?_of_escapeLetter? hletter)
  | none =>
      obtain ⟨hquote, hbackslash⟩ := ne_of_escapeLetter?_eq_none hletter
      by_cases hcontrol : c.toNat < 0x20
      · have hunit := CharText.unit (hexUnit_control hcontrol) (.inl (by omega))
        rw [Char.ofNat_toNat] at hunit
        simpa [hcontrol] using hunit
      · simpa [hcontrol] using CharText.plain (by omega) hquote hbackslash

theorem stringText_flatMap (cs : List Char) : StringText (cs.flatMap escapeChar) cs := by
  induction cs with
  | nil => exact .nil
  | cons c cs ih => exact .cons (charText_escapeChar c) ih

theorem toList_quote (s : String) :
    (quote s).toList = '"' :: (s.toList.flatMap escapeChar ++ ['"']) := by
  rw [quote, String.toList_ofList, List.cons_append]

/-- **A string is read as the text between its quotes.** -/
theorem reads_quote (s : String) (rest : List Char) :
    Reads (.value (.string s.toList)) ((quote s).toList ++ rest) rest := by
  rw [toList_quote]
  rw [List.cons_append, List.append_assoc, List.singleton_append]
  exact .string (stringText_flatMap s.toList)

/-- **A key is read as the text between its quotes.** -/
theorem readsKey_quote (name : String) (colon : List Char) :
    ReadsKey name.toList ((quote name).toList ++ ':' :: colon) colon := by
  have hcolon : skipBlanks (':' :: colon) = ':' :: colon := rfl
  rw [toList_quote]
  refine .key ?_ (stringText_flatMap name.toList) hcolon
  simp [skipBlanks, isBlankChar]

/-! ### No control characters -/

/-- No character of a text is a control character. -/
def Printable (cs : List Char) : Prop := ∀ c ∈ cs, 0x20 ≤ c.toNat

@[simp] theorem printable_nil : Printable [] := fun _ hc => absurd hc List.not_mem_nil

@[simp] theorem printable_cons {c : Char} {cs : List Char} :
    Printable (c :: cs) ↔ 0x20 ≤ c.toNat ∧ Printable cs :=
  List.forall_mem_cons

@[simp] theorem printable_append {cs ds : List Char} :
    Printable (cs ++ ds) ↔ Printable cs ∧ Printable ds :=
  List.forall_mem_append

theorem le_toNat_of_isDigit {c : Char} (h : c.isDigit = true) : 0x20 ≤ c.toNat := by
  have hge : '0'.toNat ≤ c.toNat := (Char.isDigit_iff_toNat.1 h).1
  have hzero : '0'.toNat = 48 := rfl
  omega

theorem le_toNat_of_hexDigitValue? {c : Char} {n : Nat} (h : hexDigitValue? c = some n) :
    0x20 ≤ c.toNat := by
  unfold hexDigitValue? at h
  split at h
  · next hdigit => exact le_toNat_of_isDigit hdigit
  · split at h
    · next hletter =>
        have hge : 97 ≤ c.toNat := hletter.1
        omega
    · split at h
      · next hletter =>
          have hge : 65 ≤ c.toNat := hletter.1
          omega
      · cases h

theorem le_toNat_of_letterEscape? {l c : Char} (h : letterEscape? l = some c) :
    0x20 ≤ l.toNat := by
  unfold letterEscape? at h
  split at h <;> simp_all

theorem HexUnit.printable {ds : List Char} {n : Nat} (h : HexUnit ds n) : Printable ds := by
  cases h with
  | digits ha hb hc hd =>
      simp [le_toNat_of_hexDigitValue? ha, le_toNat_of_hexDigitValue? hb,
        le_toNat_of_hexDigitValue? hc, le_toNat_of_hexDigitValue? hd]

theorem CharText.printable {part : List Char} {c : Char} (h : CharText part c) :
    Printable part := by
  cases h with
  | plain hc _ _ => simpa using hc
  | letter hl => simp [le_toNat_of_letterEscape? hl]
  | unit hds _ => simp [hds.printable]
  | pair hhigh hlow => simp [hhigh.printable, hlow.printable]

/-- **A string has no control character in it.** -/
theorem StringText.printable {raw cs : List Char} (h : StringText raw cs) : Printable raw := by
  induction h with
  | nil => exact printable_nil
  | cons hc _ ih => exact printable_append.2 ⟨hc.printable, ih⟩

@[simp] theorem printable_quote (s : String) : Printable (quote s).toList := by
  rw [toList_quote]
  simp [(stringText_flatMap s.toList).printable]

theorem Exponent.WellFormed.printable_text {e : Exponent} (h : e.WellFormed) :
    Printable e.text := by
  have hdigits : Printable e.digits := fun c hc => le_toNat_of_isDigit (h.isDigit_digits c hc)
  have hsign : Printable e.sign.text := by
    cases e.sign with
    | absent | plus | minus => simp [ExponentSign.text]
  unfold Exponent.text
  cases e.capital with
  | true | false => simp [hsign, hdigits]

/-- **A number has no control character in it.** -/
theorem Literal.WellFormed.printable_text {l : Literal} (h : l.WellFormed) : Printable l.text := by
  have hmantissa : Printable l.mantissa.text := by
    intro c hc
    rcases h.mantissa.of_mem_text hc with hdigit | rfl
    · exact le_toNat_of_isDigit hdigit
    · decide
  have hexponent : Printable l.exponentText := by
    unfold Literal.exponentText
    split
    · exact printable_nil
    · next e he => exact (h.exponent e he).printable_text
  unfold Literal.text
  cases l.negative with
  | true | false => simp [hmantissa, hexponent]

end Json

/-! ### Numbers -/

/-- A point and a zero after an integral number make no difference. -/
theorem Mantissa.exists_pointed {m : Mantissa} (h : m.WellFormed) (hfraction : m.fraction = []) :
    ∃ m' : Mantissa, m'.text = m.text ++ ['.', '0'] ∧ m'.WellFormed ∧
      (m'.toDecimal 0).value = (m.toDecimal 0).value := by
  refine ⟨⟨m.whole, ['0']⟩, ?_, ⟨h.whole_ne, h.isDigit_whole, ?_, h.whole_head⟩, ?_⟩
  · simp [text, hfraction]
  · intro c hc
    rw [List.mem_singleton.1 hc]
    rfl
  · have hzero : digitsValue ['0'] = 0 := digitsValue_zeros 1
    rw [value_toDecimal, value_toDecimal, hfraction, digitsValue_append, hzero]
    simp [mul_comm]

namespace Json.Exponent

/-- A power of ten with its sign and without padding. -/
def ofInt (e : Int) : Exponent where
  capital := false
  sign := if e < 0 then .minus else .plus
  digits := Nat.toDigits 10 e.natAbs

theorem text_ofInt (e : Int) :
    (ofInt e).text = 'e' :: (if e < 0 then '-' else '+') :: Nat.toDigits 10 e.natAbs := by
  unfold ofInt text
  split <;> rfl

theorem wellFormed_ofInt (e : Int) : (ofInt e).WellFormed :=
  ⟨Nat.toDigits_ne_nil, fun _ hc => Nat.isDigit_of_mem_toDigits (by decide) (by decide) hc⟩

theorem value_ofInt (e : Int) : (ofInt e).value = e := by
  unfold ofInt value
  dsimp only
  rw [digitsValue_toDigits]
  by_cases h : e < 0
  · rw [if_pos h]
    dsimp only
    omega
  · rw [if_neg h]
    dsimp only
    omega

end Json.Exponent

namespace Binary64

variable {x : Binary64}

/-- A number that is read as the magnitude of a value, with its sign. -/
theorem toBinary64_literal {mantissa : Mantissa} {exponent : Option Json.Exponent}
    {h : x.magnitude ≤ infinityMagnitude}
    (hvalue : (mantissa.toDecimal (Json.Literal.mk x.negative mantissa exponent).scale).toBinary64 =
      ofMagnitude x.magnitude h) :
    (Json.Literal.mk x.negative mantissa exponent).toBinary64 = x := by
  rw [Json.Literal.toBinary64, hvalue]
  rfl

/-- **The layout without an exponent** is a number that is read as the value. -/
theorem exists_literal_of_mantissa {body : List Char} {mantissa : Mantissa}
    (h : x.magnitude ≤ infinityMagnitude) (hbody : body = mantissa.text)
    (hwell : mantissa.WellFormed)
    (hvalue : (mantissa.toDecimal 0).toBinary64 = ofMagnitude x.magnitude h) :
    ∃ l : Json.Literal, x.signChars ++ body = l.text ∧ l.WellFormed ∧ l.toBinary64 = x := by
  refine ⟨⟨x.negative, mantissa, none⟩, ?_, ⟨hwell, nofun⟩, toBinary64_literal hvalue⟩
  rw [hbody, Json.Literal.text, Json.Literal.exponentText, List.append_nil]
  rfl

/-- **The layout with an exponent** is a number that is read as the value. -/
theorem exists_literal_of_exponent {body : List Char} {mantissa : Mantissa} {e : Int}
    (h : x.magnitude ≤ infinityMagnitude)
    (hbody : body = mantissa.text ++ 'e' :: (if e < 0 then '-' else '+') ::
      Nat.toDigits 10 e.natAbs)
    (hwell : mantissa.WellFormed)
    (hvalue : (mantissa.toDecimal e).toBinary64 = ofMagnitude x.magnitude h) :
    ∃ l : Json.Literal, x.signChars ++ body = l.text ∧ l.WellFormed ∧ l.toBinary64 = x := by
  refine ⟨⟨x.negative, mantissa, some (.ofInt e)⟩, ?_, ⟨hwell, ?_⟩, ?_⟩
  · rw [hbody, ← Json.Exponent.text_ofInt]
    rfl
  · intro e' he'
    obtain rfl : Json.Exponent.ofInt e = e' := Option.some.inj he'
    exact Json.Exponent.wellFormed_ofInt e
  · have hscale : (Json.Literal.mk x.negative mantissa (some (.ofInt e))).scale = e :=
      Json.Exponent.value_ofInt e
    refine toBinary64_literal (h := h) ?_
    rw [hscale, hvalue]

/-- **A number is read as the value it was written for**, the sign of a zero included. -/
theorem exists_literal_dataText (h : x.isFinite = true) :
    ∃ l : Json.Literal, x.dataText.toList = l.text ∧ l.WellFormed ∧ l.toBinary64 = x := by
  have hle : x.magnitude ≤ infinityMagnitude := Nat.le_of_lt (by simpa [isFinite] using h)
  unfold dataText
  rw [String.toList_ofList]
  dsimp only
  split
  · next h0 =>
      have hwell : (⟨['0'], ['0']⟩ : Mantissa).WellFormed :=
        ⟨by simp, by simp, by simp, .inl rfl⟩
      have hdigits : digitsValue (['0'] ++ ['0']) = 0 := digitsValue_zeros 2
      refine exists_literal_of_mantissa hle rfl hwell ?_
      rw [Mantissa.toDecimal, hdigits]
      simp only [h0]
      rfl
  · next h0 =>
      have hne := digits_shortest_ne .toEven h0 hle
      have hshortest := toBinary64_shortest .toEven hle
      generalize shortest .toEven x.magnitude = d at hne hshortest
      split
      · obtain ⟨mantissa, hbody, hwell, hvalue, hfraction⟩ := Decimal.laidOut_positional hne
        rw [hbody]
        split
        · next hexponent =>
            obtain ⟨pointed, htext, hpointed, hsame⟩ :=
              Mantissa.exists_pointed hwell (hfraction.2 hexponent)
            refine exists_literal_of_mantissa hle htext.symm hpointed ?_
            rw [Decimal.toBinary64_congr (hsame.trans hvalue), hshortest]
        · refine exists_literal_of_mantissa hle (List.append_nil _) hwell ?_
          rw [Decimal.toBinary64_congr hvalue, hshortest]
      · obtain ⟨mantissa, hbody, hwell, hvalue⟩ := Decimal.exists_scientific hne
        refine exists_literal_of_exponent hle hbody hwell ?_
        rw [Decimal.toBinary64_congr hvalue, hshortest]

end Binary64

end StreamLexer
