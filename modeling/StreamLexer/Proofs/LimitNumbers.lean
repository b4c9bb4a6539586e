/-
**The token limit in a text.**

A limit is a machine word, and the number that stands for it in a configuration may be of any form
and any length.  Digits are gathered for as long as a word holds them, and the first one that it
does not hold is remembered; a sign, a fraction or an exponent makes a number another kind of value.
So a number is a limit just when it is written in plain digits and a word holds it, and then the
limit is that number; every other number is refused, and never cut down or rounded to one.

Main definitions:

* `StreamLexer.Json.NaturalText` — **a natural number in plain digits**;
* `StreamLexer.Config.LimitRefusal` — what a number that is no limit is refused for;
* `StreamLexer.Config.limitEntry`, `StreamLexer.Config.limitObject` — the member that sets the
  limit, and the object with nothing else in it.

Main results:

* `StreamLexer.Json.Significand.full_foldl_addWhole` — a digit is left out of a number that no word
  holds;
* `StreamLexer.Json.Literal.WellFormed.integerValue?_numeral` — **the integers among the numbers**;
* `StreamLexer.Config.readLimit_number` — a limit is read as the value of its number says;
* `StreamLexer.Config.ofString_limit` — **a limit is the number that is written, or refused**.
-/

import StreamLexer.Proofs.ConfigText

set_option relaxedAutoImplicit false
set_option autoImplicit false

namespace StreamLexer

namespace Json

/-! ### Plain digits -/

/-- **A natural number in plain digits**: a zero, or digits that do not begin with one. -/
inductive NaturalText : List Char → Prop
  | zero : NaturalText ['0']
  | digits {d : Char} {ds : List Char} : d ≠ '0' → (∀ c ∈ d :: ds, c.isDigit = true) →
      NaturalText (d :: ds)

theorem NaturalText.isDigit {cs : List Char} (h : NaturalText cs) :
    ∀ c ∈ cs, c.isDigit = true := by
  cases h with
  | zero => simp
  | digits _ hdigits => exact hdigits

namespace Literal

variable {l : Literal}

theorem text_of_plain (hsign : l.negative = false) (hfraction : l.mantissa.fraction = [])
    (hexponent : l.exponent = none) : l.text = l.mantissa.whole := by
  simp [text, exponentText, Mantissa.text, hsign, hfraction, hexponent]

/-- **Plain digits** are a number without sign, fraction and exponent. -/
theorem WellFormed.naturalText_iff (h : l.WellFormed) :
    NaturalText l.text ↔ l.negative = false ∧ l.mantissa.fraction = [] ∧ l.exponent = none := by
  constructor
  · intro hnatural
    -- each of the three parts has a character that is no digit
    have hdigit := hnatural.isDigit
    refine ⟨?_, ?_, ?_⟩
    · cases hsign : l.negative with
      | false => rfl
      | true =>
          have hmem : '-' ∈ l.text := by simp [text, hsign]
          exact absurd (hdigit _ hmem) (by decide)
    · by_contra hfraction
      have hmem : '.' ∈ l.text := by simp [text, Mantissa.text, hfraction]
      exact absurd (hdigit _ hmem) (by decide)
    · cases hexponent : l.exponent with
      | none => rfl
      | some e =>
          have hmem : (if e.capital then 'E' else 'e') ∈ l.text := by
            simp [text, exponentText, hexponent, Exponent.text]
          have hletter := hdigit _ hmem
          cases hcapital : e.capital <;> simp [hcapital] at hletter
  · rintro ⟨hsign, hfraction, hexponent⟩
    rw [text_of_plain hsign hfraction hexponent]
    rcases h.mantissa.whole_head with hzero | hhead
    · rw [hzero]
      exact .zero
    · obtain ⟨d, ds, hwhole⟩ := List.exists_cons_of_ne_nil h.mantissa.whole_ne
      have hdigits := h.mantissa.isDigit_whole
      rw [hwhole] at hhead hdigits ⊢
      exact .digits (by simpa using hhead) hdigits

end Literal

/-! ### Numbers that a word holds -/

namespace Significand

/-- Once a digit has been left out, it stays so. -/
theorem full_foldl_addWhole_of_full (ds : Bytes) {s : Significand} (h : s.full = true) :
    (ds.foldl addWhole s).full = true := by
  induction ds generalizing s with
  | nil => exact h
  | cons b ds ih =>
      have hnone : s.append? b = none := by simp [append?, h]
      rw [List.foldl_cons, addWhole, hnone]
      exact ih rfl

/-- **A digit is left out of a number that no word holds.** -/
theorem full_foldl_addWhole (ds : Bytes) {s : Significand} (hs : s.value < UInt64.size)
    (h : UInt64.size ≤ (ds.map digitValue).foldl Digits.append s.value) :
    (ds.foldl addWhole s).full = true := by
  induction ds generalizing s with
  | nil => exact absurd hs (Nat.not_lt.2 h)
  | cons b ds ih =>
      cases happend : s.append? b with
      | none =>
          rw [List.foldl_cons, addWhole, happend]
          exact full_foldl_addWhole_of_full ds rfl
      | some n =>
          -- the digit was taken, so a word still holds the number
          obtain ⟨hfits, rfl⟩ := Option.ite_some_none_eq_some.1 happend
          have hlt : 10 * s.value + digitValue b < UInt64.size := by
            simpa using (Bool.and_eq_true_iff.1 hfits).2
          rw [List.foldl_cons, addWhole, happend]
          exact ih hlt h

end Significand

namespace Literal

variable {l : Literal}

/-- The number that is gathered of the digits before the point, if a word holds it. -/
theorem WellFormed.foldl_digits (h : l.WellFormed) :
    ((l.numeral.whole).map digitValue).foldl Digits.append 0 = digitsValue l.mantissa.whole := by
  rw [digitsValue, Digits.value_eq_foldl, ← map_digitValue_byte h.mantissa.isDigit_whole]
  rfl

/-- **The integers among the numbers** are those without fraction and exponent whose digits a word
holds. -/
theorem WellFormed.integerValue?_numeral (h : l.WellFormed) :
    l.numeral.integerValue? =
      if l.mantissa.fraction = [] ∧ l.exponent = none ∧ digitsValue l.mantissa.whole < UInt64.size
      then integer? l.negative (digitsValue l.mantissa.whole) else none := by
  have hfraction : l.numeral.fraction.isNone = decide (l.mantissa.fraction = []) := by
    by_cases hf : l.mantissa.fraction = [] <;> simp [numeral, hf]
  have hexponent : l.numeral.exponent.isNone = decide (l.exponent = none) := by
    cases he : l.exponent <;> simp [numeral, he]
  rw [Numeral.integerValue?, hfraction, hexponent]
  by_cases hlt : digitsValue l.mantissa.whole < UInt64.size
  · have hwhole : l.numeral.wholeSignificand = ⟨digitsValue l.mantissa.whole, false, 0⟩ := by
      have hgather := Significand.foldl_addWhole_of_lt l.numeral.whole (s := ⟨0, false, 0⟩) rfl
        (by rwa [h.foldl_digits])
      rw [h.foldl_digits] at hgather
      exact hgather
    have hsign : l.numeral.negative = l.negative := rfl
    simp [hwhole, hlt, hsign]
  · have hfull : l.numeral.wholeSignificand.full = true := by
      refine Significand.full_foldl_addWhole l.numeral.whole (s := ⟨0, false, 0⟩) (by decide) ?_
      rw [h.foldl_digits]
      exact Nat.le_of_not_lt hlt
    simp [hfull, hlt]

/-- Plain digits that a word holds are the word. -/
theorem WellFormed.value_of_natural (h : l.WellFormed) (hnatural : NaturalText l.text)
    (hlt : digitsValue l.text < UInt64.size) :
    l.numeral.value = .ok (.unsigned (.ofNat (digitsValue l.text))) := by
  obtain ⟨hsign, hfraction, hexponent⟩ := h.naturalText_iff.1 hnatural
  rw [text_of_plain hsign hfraction hexponent] at hlt ⊢
  rw [Numeral.value, h.integerValue?_numeral, if_pos ⟨hfraction, hexponent, hlt⟩, hsign]
  rfl

/-- **A number that is not in plain digits, or that no word holds**, is below zero, or no integer that
a word holds, or out of range. -/
theorem WellFormed.value_of_not_natural (h : l.WellFormed)
    (hnot : ¬ (NaturalText l.text ∧ digitsValue l.text < UInt64.size)) :
    (∃ n < 0, l.numeral.value = .ok (.negative n)) ∨
      (∃ x, l.numeral.value = .ok (.float x)) ∨ l.numeral.value = .error .numberOutOfRange := by
  cases hinteger : l.numeral.integerValue? with
  | none =>
      rw [Numeral.value, hinteger]
      cases l.numeral.floatValue? with
      | none => exact .inr (.inr rfl)
      | some x => exact .inr (.inl ⟨x, rfl⟩)
  | some n =>
      have hvalue : l.numeral.value = .ok n := by rw [Numeral.value, hinteger]
      rw [h.integerValue?_numeral] at hinteger
      obtain ⟨⟨hfraction, hexponent, hlt⟩, hinteger⟩ := Option.ite_none_right_eq_some.1 hinteger
      cases hsign : l.negative with
      | false =>
          have hnatural := h.naturalText_iff.2 ⟨hsign, hfraction, hexponent⟩
          rw [text_of_plain hsign hfraction hexponent] at hnot hnatural
          exact absurd ⟨hnatural, hlt⟩ hnot
      | true =>
          -- zero below zero is no integer
          rw [hsign, integer?, if_pos rfl] at hinteger
          obtain ⟨hrange, hn⟩ := Option.ite_none_left_eq_some.1 hinteger
          have hpos : digitsValue l.mantissa.whole ≠ 0 := by
            intro hzero
            simp [hzero] at hrange
          refine .inl ⟨-(digitsValue l.mantissa.whole : Int), by omega, ?_⟩
          rw [hvalue, Option.some.inj hn]

/-- A number in a text goes on for as long as characters of a number come. -/
theorem WellFormed.endsNumber_of_scans (h : l.WellFormed) {after : List Char}
    (hscan : Scans .value (l.text ++ after) after) : EndsNumber after := by
  obtain ⟨c, cs, htext, hkind⟩ := h.exists_text_eq
  rw [htext, List.cons_append] at hscan
  obtain ⟨_, _, _, hafter, _⟩ := hscan.exists_literal hkind
  exact hafter

end Literal

/-- The value of a member has the form of one. -/
theorem EntryText.scans {e : Entry} {cs after : List Char} (h : EntryText e cs after) :
    Scans .value (e.value ++ after) after := by
  cases h with
  | entry _ _ hscan => exact hscan

end Json

namespace Config

open Json

/-! ### Limits -/

/-- **What a number that is no limit is refused for**: it is below zero, it is no integer that a
word holds, or it is out of range. -/
inductive LimitRefusal : ReadError → Prop
  | negative {n : Int} : n < 0 → LimitRefusal (.invalidValue (.integer n) limitKind)
  | float (x : Binary64) : LimitRefusal (.invalidType (.float x) limitKind)
  | outOfRange : LimitRefusal .numberOutOfRange

variable {l : Literal} {rest : List Char}

/-- **A limit is read as the value of its number says.** -/
theorem readLimit_number (h : l.WellFormed) (hrest : EndsNumber rest) :
    readLimit (.ofText (l.text ++ rest)) =
      match l.numeral.value with
      | .ok n => limitOfNumber n (.ofText rest)
      | .error e => .error e := by
  obtain ⟨c, cs, htext, hkind⟩ := h.exists_text_eq
  have hascii := toNat_lt_of_kindOf? hkind
  have hn : byte c ≠ byte 'n' := byte_ne_of_number hkind (by decide) (by decide)
  have hblank : skipBlanks (l.text ++ rest) = c :: (cs ++ rest) := by
    rw [(Reads.number h hrest).skipBlanks_eq, htext, List.cons_append]
  rw [readLimit, bind_of_eq_ok (nextSolid_ofText hblank hascii)]
  dsimp only
  rw [if_neg hn, if_pos ((minus_or_digit_iff hascii).2 hkind)]
  have hnumeral := readNumeral_ofText h hrest htext .endInValue
  cases hvalue : l.numeral.value with
  | ok n =>
      have hnumber : readNumber (byte c) (.ofText (cs ++ rest)) = .ok (n, .ofText rest) := by
        rw [readNumber, bind_of_eq_ok hnumeral, hvalue]
        rfl
      rw [bind_of_eq_ok hnumber]
  | error e =>
      have hnumber : readNumber (byte c) (.ofText (cs ++ rest)) = .error e := by
        rw [readNumber, bind_of_eq_ok hnumeral, hvalue]
        rfl
      rw [bind_of_eq_error hnumber]

/-- Plain digits that a word holds are read as the word. -/
theorem readLimit_of_natural (h : l.WellFormed) (hrest : EndsNumber rest)
    (hnatural : NaturalText l.text) (hlt : digitsValue l.text < UInt64.size) :
    readLimit (.ofText (l.text ++ rest)) =
      .ok (some (.ofNat (digitsValue l.text)), .ofText rest) := by
  rw [readLimit_number h hrest, h.value_of_natural hnatural hlt]
  rfl

/-- **A number that is not in plain digits, or that no word holds, is refused.** -/
theorem exists_limitRefusal (h : l.WellFormed) (hrest : EndsNumber rest)
    (hnot : ¬ (NaturalText l.text ∧ digitsValue l.text < UInt64.size)) :
    ∃ cause, LimitRefusal cause ∧ readLimit (.ofText (l.text ++ rest)) = .error cause := by
  rw [readLimit_number h hrest]
  rcases h.value_of_not_natural hnot with ⟨n, hn, hvalue⟩ | ⟨x, hvalue⟩ | hvalue
  · exact ⟨_, .negative hn, by rw [hvalue]; rfl⟩
  · exact ⟨_, .float x, by rw [hvalue]; rfl⟩
  · exact ⟨_, .outOfRange, by rw [hvalue]⟩

/-! ### Objects that set the limit and nothing else -/

/-- The member that sets the limit. -/
def limitEntry (l : Literal) : Entry := ⟨Member.maxTokens.name.toList, l.text⟩

/-- The object with the member that sets the limit, and with no other. -/
def limitObject (l : Literal) : String :=
  String.ofList ('\x7b' :: ((quote Member.maxTokens.name).toList ++ ':' :: ' ' ::
    (l.text ++ ['\x7d'])))

theorem objectText_limitObject (h : l.WellFormed) :
    ObjectText [limitEntry l] (limitObject l).toList := by
  have hnumber : Reads (.value (.number l)) (l.text ++ ['\x7d']) ['\x7d'] :=
    .number h (endsNumber_of_separator (.inr rfl) [])
  have hblank : skipBlanks (' ' :: (l.text ++ ['\x7d'])) = l.text ++ ['\x7d'] :=
    hnumber.skipBlanks_eq
  rw [limitObject, String.toList_ofList]
  exact .entries rfl (.last (.entry (readsKey_quote _ _) hblank hnumber.scans) rfl) rfl

/-- What an object is refused for, a text that begins with it is refused for. -/
theorem ofInput_of_error {cs inner : List Char} {cause : ReadError}
    (h : skipBlanks cs = '\x7b' :: inner) (hobject : readObject (.ofText inner) = .error cause) :
    ofInput (.ofText cs) = .error cause := by
  have hread : read (.ofText cs) = .error cause := by
    rw [read, bind_of_eq_ok (nextSolid_ofText h (by decide))]
    simp only [if_true]
    rw [bind_of_eq_error hobject]
  have hwhole : (read >>= fun config => readEnd >>= fun _ => pure config) (.ofText cs) =
      .error cause := bind_of_eq_error hread
  exact congrArg (Prod.fst <$> ·) hwhole

/-- A limit alone in a draft. -/
theorem readKeyed_maxTokens :
    ({} : Draft).readKeyed (Member.ofName? (String.ofList Member.maxTokens.name.toList)) =
      (readLimit >>= fun limit => pure { maxTokens := some limit }) := rfl

/-- **An object that sets the limit alone is read as its limit is**, and refused for what its limit is
refused for. -/
theorem ofString_of_limitEntry (h : l.WellFormed) {s : String}
    (hs : ObjectText [limitEntry l] s.toList) :
    ∃ after, EndsNumber after ∧
      (∀ limit, readLimit (.ofText (l.text ++ after)) = .ok (limit, .ofText after) →
        ofString s = .ok { maxTokens := limit }) ∧
      ∀ cause, readLimit (.ofText (l.text ++ after)) = .error cause →
        ofString s = .error cause := by
  generalize hes : [limitEntry l] = es at hs
  cases hs with
  | empty => cases hes
  | entries hopen hentries hend =>
      subst hes
      cases hentries with
      | more _ _ hnone => cases hnone
      | @last _ _ after _ hentry hclose =>
          have hread := readEntry_ofText hentry {}
          have hobject := readObject_ofText (.last hentry hclose)
          rw [limitEntry, readKeyed_maxTokens] at hread
          rw [readEntries] at hobject
          refine ⟨after, ?_, ?_, ?_⟩
          · exact h.endsNumber_of_scans hentry.scans
          · intro limit hlimit
            rw [bind_of_eq_ok (hread.trans (bind_of_eq_ok hlimit)), readMoreEntries_close hclose]
              at hobject
            exact ofInput_ofText hopen hobject hend
          · intro cause hlimit
            rw [bind_of_eq_error (hread.trans (bind_of_eq_error hlimit))] at hobject
            exact ofInput_of_error hopen hobject

/-- **A limit is the number that is written, or it is refused.**  An object that sets the limit to
a number, and nothing else, is read as a configuration just when the number is in plain digits and
a word holds it; then the limit is that number, and so many tokens are written.  Every other number,
however long, is refused. -/
theorem ofString_limit {l : Literal} (h : l.WellFormed) :
    ObjectText [limitEntry l] (limitObject l).toList ∧
      ∀ s : String, ObjectText [limitEntry l] s.toList →
        ((∃ c, ofString s = .ok c) ↔
          NaturalText l.text ∧ Nat.ofDigitChars 10 l.text 0 < 2 ^ 64) ∧
        (∀ c, ofString s = .ok c → ∃ limit : UInt64, c = { maxTokens := some limit } ∧
          limit.toNat = Nat.ofDigitChars 10 l.text 0 ∧
          ∀ count, c.limitReached count = true ↔ Nat.ofDigitChars 10 l.text 0 ≤ count) ∧
        (¬ (NaturalText l.text ∧ Nat.ofDigitChars 10 l.text 0 < 2 ^ 64) →
          ∃ cause, ofString s = .error cause ∧ LimitRefusal cause) := by
  refine ⟨objectText_limitObject h, ?_⟩
  intro s hs
  obtain ⟨after, hafter, hok, herror⟩ := ofString_of_limitEntry h hs
  rw [← digitsValue_eq]
  change ((∃ c, ofString s = .ok c) ↔ NaturalText l.text ∧ digitsValue l.text < UInt64.size) ∧ _ ∧
    (¬ (NaturalText l.text ∧ digitsValue l.text < UInt64.size) → _)
  by_cases hlimit : NaturalText l.text ∧ digitsValue l.text < UInt64.size
  · have hread := hok _ (readLimit_of_natural h hafter hlimit.1 hlimit.2)
    refine ⟨iff_of_true ⟨_, hread⟩ hlimit, ?_, fun hnot => absurd hlimit hnot⟩
    intro c hc
    obtain rfl := Except.ok.inj (hread.symm.trans hc)
    have hvalue : (UInt64.ofNat (digitsValue l.text)).toNat = digitsValue l.text :=
      UInt64.toNat_ofNat_of_lt hlimit.2
    refine ⟨_, rfl, hvalue, ?_⟩
    intro count
    rw [limitReached, decide_eq_true_iff, hvalue]
  · obtain ⟨cause, hcause, hread⟩ := exists_limitRefusal h hafter hlimit
    have hrefused := herror cause hread
    have hno : ∀ c, ofString s ≠ .ok c := by
      intro c hc
      rw [hrefused] at hc
      cases hc
    refine ⟨iff_of_false (fun ⟨c, hc⟩ => hno c hc) hlimit, ?_, fun _ => ⟨cause, hrefused, hcause⟩⟩
    intro c hc
    exact absurd hc (hno c)

/-- The largest word is a limit.  One more is none, nor is a zero below zero. -/
theorem ofString_limit_at_largest :
    (Literal.natural 18446744073709551615).WellFormed ∧
      ofString "\x7b\"max_tokens\": 18446744073709551615\x7d" =
        .ok { maxTokens := some 18446744073709551615 } ∧
      (∃ cause, ofString "\x7b\"max_tokens\": 18446744073709551616\x7d" = .error cause ∧
        LimitRefusal cause) ∧
      ∃ cause, ofString "\x7b\"max_tokens\": -0\x7d" = .error cause ∧ LimitRefusal cause := by
  have hlargest := Literal.wellFormed_natural 18446744073709551615
  have hminus : Literal.WellFormed ⟨true, ⟨['0'], []⟩, none⟩ :=
    ⟨⟨by simp, by simp, by simp, .inl rfl⟩, nofun⟩
  have hvalue : Nat.ofDigitChars 10 (Literal.natural 18446744073709551615).text 0 =
      18446744073709551615 := by decide +kernel
  obtain ⟨htext, hread⟩ := ofString_limit hlargest
  obtain ⟨htext', hread'⟩ := ofString_limit (Literal.wellFormed_natural 18446744073709551616)
  obtain ⟨htext'', hread''⟩ := ofString_limit hminus
  refine ⟨hlargest, ?_, ?_, ?_⟩
  · obtain ⟨hiff, hlimit, _⟩ := hread _ htext
    obtain ⟨c, hc⟩ := hiff.2 ⟨hlargest.naturalText_iff.2 ⟨rfl, rfl, rfl⟩, by rw [hvalue]; decide⟩
    obtain ⟨limit, rfl, hword, _⟩ := hlimit c hc
    obtain rfl : limit = 18446744073709551615 := UInt64.toNat_inj.1 (hword.trans hvalue)
    exact hc
  · refine (hread' _ htext').2.2 ?_
    rintro ⟨_, hlt⟩
    exact absurd hlt (by decide +kernel)
  · refine (hread'' _ htext'').2.2 ?_
    rintro ⟨hnatural, _⟩
    exact absurd (hminus.naturalText_iff.1 hnatural).1 (by decide)

end Config

end StreamLexer
