/-
**Numbers at the head of a text.**

A number is read part by part: the sign, the digits before the point, the point and the digits
after it, the exponent.  Each part is told from what may follow it by one character, so a number
that the rules name is read up to its end, whatever its size.  What is read of it are its digits,
and its exponent up to a cap.

Main definitions:

* `StreamLexer.Json.Literal.numeral` — a number as it is written, in the parts that are read.

Main results:

* `StreamLexer.Json.readNumeral_ofText` — **a number is read up to its end**;
* `StreamLexer.Json.skipNumber_ofText` — a number that is passed over is read up to its end;
* `StreamLexer.Json.readNumber_natural` — **digits without more to them are an integer** if a word
  holds it.
-/

import StreamLexer.Proofs.JsonReading

set_option relaxedAutoImplicit false
set_option autoImplicit false

namespace StreamLexer.Json

/-! ### The parts that are read -/

/-- The power of ten that is read for an exponent. -/
def Exponent.readValue (e : Exponent) : Int :=
  let n : Int := Digits.cappedValue exponentCap ((e.digits.map byte).map digitValue)
  if e.sign = .minus then -n else n

/-- **A number as it is written, in the parts that are read.** -/
def Literal.numeral (l : Literal) : Numeral where
  negative := l.negative
  whole := l.mantissa.whole.map byte
  fraction := if l.mantissa.fraction = [] then none else some (l.mantissa.fraction.map byte)
  exponent := l.exponent.map Exponent.readValue

variable {rest : List Char}

theorem someDigits_ofText {ds : List Char} (hne : ds ≠ []) (hds : ∀ c ∈ ds, c.isDigit = true)
    (hrest : ∀ c ∈ rest.head?, c.isDigit = false) (atEnd : ReadError) :
    someDigits atEnd (.ofText (ds ++ rest)) = .ok (ds.map byte, .ofText rest) := by
  have hsome : (ds.map byte).isEmpty = false := by
    simpa using hne
  rw [someDigits, bind_of_eq_ok (digits_ofText hds hrest)]
  simp only [hsome, Bool.false_eq_true, if_false]
  rfl

/-! ### Reading them -/

/-- The digits before the point: a zero, or digits that do not begin with one. -/
theorem readWhole_ofText {c : Char} {ds : List Char} (hc : c.isDigit = true)
    (hds : ∀ d ∈ ds, d.isDigit = true) (hhead : c :: ds = ['0'] ∨ c ≠ '0')
    (hrest : ∀ d ∈ rest.head?, d.isDigit = false) :
    readWhole (byte c) (.ofText (ds ++ rest)) = .ok ((c :: ds).map byte, .ofText rest) := by
  by_cases hzero : c = '0'
  · subst hzero
    obtain rfl : ds = [] := by
      rcases hhead with h | h
      · exact (List.cons.inj h).2
      · exact absurd rfl h
    rw [List.nil_append, readWhole, if_pos rfl, bind_of_eq_ok (peekByte_ofText rest)]
    cases rest with
    | nil => rfl
    | cons d rest =>
        have hlead : isDigit (leadByte d) = false := by
          rw [isDigit_leadByte, hrest d rfl]
        simp only [List.head?_cons, Option.map_some, hlead, Bool.false_eq_true, if_false]
        rfl
  · have hne : byte c ≠ byte '0' := by
      rwa [Ne, byte_inj (toNat_lt_of_isDigit hc) (by decide)]
    rw [readWhole, if_neg hne, if_pos (isDigit_byte hc), bind_of_eq_ok (digits_ofText hds hrest)]
    rfl

/-- The point and the digits after it, if they are there. -/
theorem readFraction_ofText {fraction : List Char} (hfraction : ∀ c ∈ fraction, c.isDigit = true)
    (hrest : ∀ c ∈ rest.head?, c.isDigit = false ∧ c ≠ '.') (atEnd : ReadError) :
    readFraction atEnd (.ofText ((if fraction = [] then [] else '.' :: fraction) ++ rest)) =
      .ok (if fraction = [] then none else some (fraction.map byte), .ofText rest) := by
  split
  · rw [List.nil_append, readFraction, bind_of_eq_ok (peekByte_ofText rest)]
    cases rest with
    | nil => rfl
    | cons c rest =>
        have hpoint : leadByte c ≠ byte '.' := by
          rw [Ne, leadByte_eq_byte_iff (by decide)]
          exact (hrest c rfl).2
        simp only [List.head?_cons, Option.map_some]
        rw [if_neg hpoint]
        rfl
  · next hne =>
      have hdigits := someDigits_ofText hne hfraction (fun c hc => (hrest c hc).1) atEnd
      rw [List.cons_append, readFraction, bind_of_eq_ok (peekByte_ofText _)]
      simp only [List.head?_cons, Option.map_some]
      rw [if_pos (leadByte_ascii (by decide)), bind_of_eq_ok (nextByte_ofText (by decide) _),
        bind_of_eq_ok hdigits]
      rfl

/-- A sign, if it is there, before digits. -/
theorem readSign_ofText {ds : List Char} (hne : ds ≠ []) (hds : ∀ c ∈ ds, c.isDigit = true)
    (sign : ExponentSign) :
    readSign (.ofText (sign.text ++ (ds ++ rest))) =
      .ok (decide (sign = .minus), .ofText (ds ++ rest)) := by
  cases sign with
  | plus | minus => rfl
  | absent =>
      obtain ⟨c, cs, rfl⟩ := List.exists_cons_of_ne_nil hne
      have hdigit := hds c List.mem_cons_self
      have hsign : ∀ d : Char, d.toNat < 0x80 → d.isDigit = false → leadByte c ≠ byte d := by
        intro d hd hnot
        rw [Ne, leadByte_eq_byte_iff hd]
        rintro rfl
        exact absurd hdigit (Bool.eq_false_iff.1 hnot)
      rw [ExponentSign.text, List.nil_append, List.cons_append, readSign,
        bind_of_eq_ok (peekByte_ofText _)]
      simp only [List.head?_cons, Option.map_some]
      rw [if_neg (hsign '-' (by decide) rfl), if_neg (hsign '+' (by decide) rfl)]
      rfl

/-- The exponent, if it is there. -/
theorem readExponent_ofText {l : Literal} (h : ∀ e, l.exponent = some e → e.WellFormed)
    (hrest : EndsNumber rest) (atEnd : ReadError) :
    readExponent atEnd (.ofText (l.exponentText ++ rest)) =
      .ok (l.exponent.map Exponent.readValue, .ofText rest) := by
  unfold Literal.exponentText
  rw [readExponent]
  cases hl : l.exponent with
  | none =>
      dsimp only
      rw [List.nil_append, bind_of_eq_ok (peekByte_ofText rest)]
      cases rest with
      | nil => rfl
      | cons c rest =>
          obtain ⟨_, _, hsmall, hcapital⟩ := hrest c rfl
          have hletter : (leadByte c = byte 'e' || leadByte c = byte 'E') = false := by
            simp [leadByte_eq_byte_iff (c := c) (d := 'e') (by decide),
              leadByte_eq_byte_iff (c := c) (d := 'E') (by decide), hsmall, hcapital]
          simp only [List.head?_cons, Option.map_some, hletter, Bool.false_eq_true, if_false]
          rfl
  | some e =>
      have hwell := h e hl
      dsimp only
      rw [Exponent.text, List.cons_append, List.append_assoc, bind_of_eq_ok (peekByte_ofText _)]
      have hascii : (if e.capital then 'E' else 'e').toNat < 0x80 := by
        cases e.capital <;> decide
      have hletter : (leadByte (if e.capital then 'E' else 'e') = byte 'e' ||
          leadByte (if e.capital then 'E' else 'e') = byte 'E') = true := by
        cases e.capital <;> rfl
      simp only [List.head?_cons, Option.map_some, hletter, if_true]
      rw [bind_of_eq_ok (nextByte_ofText hascii _),
        bind_of_eq_ok (readSign_ofText hwell.digits_ne hwell.isDigit_digits e.sign),
        bind_of_eq_ok
          (someDigits_ofText hwell.digits_ne hwell.isDigit_digits hrest.isDigit_eq atEnd)]
      simp only [Exponent.readValue, decide_eq_true_eq]
      rfl

/-- After the digits before the point comes no digit. -/
theorem head?_fractionText (fraction : List Char)
    (hrest : ∀ c ∈ rest.head?, c.isDigit = false) :
    ∀ c ∈ ((if fraction = [] then [] else '.' :: fraction) ++ rest).head?, c.isDigit = false := by
  split
  · exact hrest
  · intro c hc
    obtain rfl : '.' = c := Option.some.inj hc
    rfl

/-- A number without its sign is read up to its end. -/
theorem readParts_ofText {l : Literal} (h : l.WellFormed) (hrest : EndsNumber rest) {c : Char}
    {cs : List Char} (htext : l.mantissa.text ++ l.exponentText = c :: cs) (atEnd : ReadError) :
    readParts atEnd l.negative (byte c) (.ofText (cs ++ rest)) = .ok (l.numeral, .ofText rest) := by
  obtain ⟨d, ds, hwhole⟩ := List.exists_cons_of_ne_nil h.mantissa.whole_ne
  have hexponent := l.head?_exponentText hrest
  have hdigits := h.mantissa.isDigit_whole
  have hhead := h.mantissa.whole_head
  rw [hwhole] at hdigits hhead
  rw [Mantissa.text, hwhole, List.append_assoc, List.cons_append] at htext
  obtain ⟨rfl, rfl⟩ := List.cons.inj htext
  have hzero : d :: ds = ['0'] ∨ d ≠ '0' := by
    rcases hhead with hz | hne
    · exact .inl hz
    · exact .inr fun hd => hne (by rw [hd]; rfl)
  have hread := readWhole_ofText (hdigits d List.mem_cons_self)
    (fun c hc => hdigits c (List.mem_cons_of_mem d hc)) hzero
    (head?_fractionText l.mantissa.fraction fun c hc => (hexponent c hc).1)
  rw [List.append_assoc, List.append_assoc, readParts, bind_of_eq_ok hread,
    bind_of_eq_ok (readFraction_ofText h.mantissa.isDigit_fraction hexponent atEnd),
    bind_of_eq_ok (readExponent_ofText h.exponent hrest atEnd), Literal.numeral, hwhole]
  rfl

/-- **A number is read up to its end.** -/
theorem readNumeral_ofText {l : Literal} (h : l.WellFormed) (hrest : EndsNumber rest) {c : Char}
    {cs : List Char} (htext : l.text = c :: cs) (atEnd : ReadError) :
    readNumeral atEnd (byte c) (.ofText (cs ++ rest)) = .ok (l.numeral, .ofText rest) := by
  obtain ⟨d, ds, hmantissa, hdigit⟩ := h.mantissa.exists_text_eq
  have hparts : l.mantissa.text ++ l.exponentText = d :: (ds ++ l.exponentText) := by
    rw [hmantissa, List.cons_append]
  have hread := readParts_ofText h hrest hparts atEnd
  have hascii := toNat_lt_of_isDigit hdigit
  rw [Literal.text, hparts] at htext
  cases hnegative : l.negative with
  | true =>
      rw [hnegative, if_pos rfl, List.singleton_append] at htext
      rw [hnegative] at hread
      obtain ⟨rfl, rfl⟩ := List.cons.inj htext
      rw [List.cons_append, readNumeral, if_pos rfl, bind_of_eq_ok (nextByte_ofText hascii _)]
      exact hread
  | false =>
      rw [hnegative, if_neg Bool.false_ne_true, List.nil_append] at htext
      rw [hnegative] at hread
      obtain ⟨rfl, rfl⟩ := List.cons.inj htext
      have hminus : byte d ≠ byte '-' := by
        rw [Ne, byte_inj hascii (by decide)]
        rintro rfl
        cases hdigit
      rw [readNumeral, if_neg hminus]
      exact hread

/-- **A number that is passed over is read up to its end**, whatever its size. -/
theorem skipNumber_ofText {l : Literal} (h : l.WellFormed) (hrest : EndsNumber rest) {c : Char}
    {cs : List Char} (htext : l.text = c :: cs) :
    skipNumber (byte c) (.ofText (cs ++ rest)) = .ok ((), .ofText rest) := by
  rw [skipNumber, bind_of_eq_ok (readNumeral_ofText h hrest htext _)]
  rfl

/-! ### Natural numbers -/

/-- The digits of a number, without more to them. -/
def Literal.natural (n : Nat) : Literal := ⟨false, ⟨Nat.toDigits 10 n, []⟩, none⟩

theorem Literal.text_natural (n : Nat) : (natural n).text = Nat.toDigits 10 n := by
  simp [natural, text, exponentText, Mantissa.text]

theorem Literal.wellFormed_natural (n : Nat) : (natural n).WellFormed := by
  refine ⟨⟨Nat.toDigits_ne_nil, ?_, fun _ hc => absurd hc List.not_mem_nil, ?_⟩, nofun⟩
  · exact fun c hc => Nat.isDigit_of_mem_toDigits (by decide) (by decide) hc
  · rcases Nat.eq_zero_or_pos n with rfl | hpos
    · exact .inl rfl
    · exact .inr (head?_toDigits_ne (Nat.pos_iff_ne_zero.1 hpos))

/-- The value of a digit is the same for the byte and the character. -/
theorem map_digitValue_byte {ds : List Char} (h : ∀ c ∈ ds, c.isDigit = true) :
    (ds.map byte).map digitValue = ds.map StreamLexer.digitValue := by
  rw [List.map_map]
  refine List.map_congr_left ?_
  intro c hc
  change (byte c).toNat - 48 = c.toNat - 48
  rw [toNat_byte (toNat_lt_of_isDigit (h c hc))]

/-- No digit is left out of a number that a word holds. -/
theorem Significand.foldl_addWhole_of_lt (ds : Bytes) {s : Significand} (hfull : s.full = false)
    (h : (ds.map digitValue).foldl Digits.append s.value < UInt64.size) :
    ds.foldl addWhole s =
      { s with value := (ds.map digitValue).foldl Digits.append s.value } := by
  induction ds generalizing s with
  | nil => rfl
  | cons b ds ih =>
      rw [List.map_cons, List.foldl_cons] at h
      -- the value only grows with more digits, so if the last one fits then so does this one
      have hlt : 10 * s.value + digitValue b < UInt64.size :=
        Nat.lt_of_le_of_lt (Digits.le_foldl_append _ (Digits.append s.value (digitValue b))) h
      have hstep : s.addWhole b = { s with value := Digits.append s.value (digitValue b) } := by
        simp only [addWhole, append?, hfull, Bool.not_false, Bool.true_and, decide_eq_true_eq,
          if_pos hlt, Digits.append]
      rw [List.foldl_cons, hstep, List.map_cons, List.foldl_cons]
      exact ih hfull h

theorem integerValue?_natural {n : Nat} (h : n < UInt64.size) :
    (Literal.natural n).numeral.integerValue? = some (.unsigned (.ofNat n)) := by
  have hdigits : ∀ c ∈ Nat.toDigits 10 n, c.isDigit = true :=
    (Literal.wellFormed_natural n).mantissa.isDigit_whole
  have hvalue : (((Nat.toDigits 10 n).map byte).map digitValue).foldl Digits.append 0 = n := by
    rw [map_digitValue_byte hdigits, ← Digits.value_eq_foldl]
    exact digitsValue_toDigits n
  have hsignificand : (Literal.natural n).numeral.wholeSignificand = ⟨n, false, 0⟩ := by
    have hgather := Significand.foldl_addWhole_of_lt ((Nat.toDigits 10 n).map byte)
      (s := ⟨0, false, 0⟩) rfl (by rwa [hvalue])
    rw [hvalue] at hgather
    exact hgather
  simp only [Numeral.integerValue?, hsignificand]
  rfl

/-- **Digits without more to them are an integer** if a word holds it. -/
theorem readNumber_natural {n : Nat} (h : n < UInt64.size) (hrest : EndsNumber rest) {c : Char}
    {cs : List Char} (htext : Nat.toDigits 10 n = c :: cs) :
    readNumber (byte c) (.ofText (cs ++ rest)) = .ok (.unsigned (.ofNat n), .ofText rest) := by
  have hread := readNumeral_ofText (Literal.wellFormed_natural n) hrest
    ((Literal.text_natural n).trans htext) .endInValue
  rw [readNumber, bind_of_eq_ok hread]
  simp only [Numeral.value, integerValue?_natural h]
  rfl

end StreamLexer.Json
