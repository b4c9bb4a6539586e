/-
**Values that are passed over.**

Passing over a value is a loop with the open containers on a stack.  Whatever has the form of a
value is passed over up to its end, and the stack is then what it was before: this holds of the
value as a whole because it holds of the values inside it.  Nothing is asked of a value but its
form, and the nesting has no bound.

Main results:

* `StreamLexer.Json.skipScalar_ofText` — a value with nothing inside is passed over;
* `StreamLexer.Json.skipFrom_ofText` — **the loop runs from the beginning of a value to its end**;
* `StreamLexer.Json.skipValue_ofText` — a value is passed over.
-/

import Mathlib.Data.List.DropRight
import StreamLexer.Proofs.JsonNumbers

set_option relaxedAutoImplicit false
set_option autoImplicit false

namespace StreamLexer.Json

/-! ### The first character of a value -/

theorem ScalarText.exists_head {cs rest : List Char} (h : ScalarText cs rest) :
    ∃ c cs' kind, cs = c :: cs' ∧ kindOf? c = some kind := by
  cases h with
  | null => exact ⟨'n', _, .null, rfl, rfl⟩
  | boolTrue => exact ⟨'t', _, .boolean, rfl, rfl⟩
  | boolFalse => exact ⟨'f', _, .boolean, rfl, rfl⟩
  | string => exact ⟨'"', _, .string, rfl, rfl⟩
  | number hl _ =>
      obtain ⟨c, cs', htext, hkind⟩ := hl.exists_text_eq
      exact ⟨c, cs' ++ rest, .number, by rw [htext, List.cons_append], hkind⟩

/-- The first character of a value tells its kind. -/
theorem Scans.exists_head {cs rest : List Char} (h : Scans .value cs rest) :
    ∃ c cs' kind, cs = c :: cs' ∧ kindOf? c = some kind := by
  cases h with
  | scalar hs => exact hs.exists_head
  | @empty c | @container c =>
      cases c with
      | list => exact ⟨'[', _, .list, rfl, rfl⟩
      | object => exact ⟨'\x7b', _, .object, rfl, rfl⟩

/-- Values begin with characters of ASCII. -/
theorem toNat_lt_of_kindOf? {c : Char} {kind : Kind} (h : kindOf? c = some kind) :
    c.toNat < 0x80 := by
  by_contra hge
  have hne : ∀ d : Char, d.toNat < 0x80 → c ≠ d := by
    rintro d hd rfl
    exact hge hd
  have hdigit : c.isDigit = false := by
    by_contra hc
    exact hge (toNat_lt_of_isDigit (Bool.eq_true_of_not_eq_false hc))
  simp [kindOf?, hdigit, hne '-' (by decide), hne 'n' (by decide), hne 't' (by decide),
    hne 'f' (by decide), hne '"' (by decide), hne '[' (by decide), hne '\x7b' (by decide)] at h

/-- A value does not begin with a blank. -/
theorem Scans.skipBlanks_eq {cs rest : List Char} (h : Scans .value cs rest) :
    skipBlanks cs = cs := by
  obtain ⟨c, cs', kind, rfl, hkind⟩ := h.exists_head
  have hblank : isBlankChar c = false := by
    by_contra hc
    rw [kindOf?_of_blank (Bool.eq_true_of_not_eq_false hc)] at hkind
    cases hkind
  exact List.dropWhile_cons_of_neg (by rw [hblank]; exact Bool.false_ne_true)

/-- What begins like a number is a number, and goes on for as long as characters of it come. -/
theorem Scans.exists_literal {c : Char} {cs rest : List Char} (h : Scans .value (c :: cs) rest)
    (hc : kindOf? c = some .number) :
    ∃ (l : Literal) (more : List Char),
      l.WellFormed ∧ EndsNumber rest ∧ l.text = c :: more ∧ cs = more ++ rest := by
  generalize htext : c :: cs = text at h
  cases h with
  | scalar hs =>
      cases hs with
      | null | boolTrue | boolFalse | string =>
          obtain ⟨rfl, _⟩ := List.cons.inj htext
          cases hc
      | @number l _ hl hrest =>
          obtain ⟨c', more, hmore, _⟩ := hl.exists_text_eq
          rw [hmore, List.cons_append] at htext
          obtain ⟨rfl, rfl⟩ := List.cons.inj htext
          exact ⟨l, more, hl, hrest, hmore, rfl⟩
  | @empty container | @container container =>
      obtain ⟨rfl, _⟩ := List.cons.inj htext
      cases container with
      | list | object => cases hc

/-! ### Values with nothing inside -/

/-- A number begins with a digit or a minus sign, and so with nothing that a name, a string or a
container begins with. -/
theorem byte_ne_of_number {c d : Char} (hc : kindOf? c = some .number) (hd : d.toNat < 0x80)
    (hkind : kindOf? d ≠ some .number) : byte c ≠ byte d := by
  rw [Ne, byte_inj (toNat_lt_of_kindOf? hc) hd]
  rintro rfl
  exact hkind hc

theorem minus_or_digit_iff {c : Char} (hascii : c.toNat < 0x80) :
    (byte c = byte '-' || isDigit (byte c)) = true ↔ kindOf? c = some .number := by
  rw [← leadByte_ascii hascii, isDigit_leadByte]
  simp only [Bool.or_eq_true, decide_eq_true_eq, leadByte_eq_byte_iff (d := '-') (by decide)]
  constructor
  · intro hfirst
    rw [kindOf?, if_pos]
    simpa only [Bool.or_eq_true, decide_eq_true_eq] using hfirst.symm
  · intro hc
    by_contra hnot
    have hneither : ¬ ((c.isDigit || decide (c = '-')) = true) := by
      simpa only [Bool.or_eq_true, decide_eq_true_eq] using fun h => hnot h.symm
    rw [kindOf?, if_neg hneither] at hc
    repeat' split at hc
    all_goals cases hc

theorem skipScalar_number {l : Literal} (h : l.WellFormed) {rest : List Char}
    (hrest : EndsNumber rest) {c : Char} {cs : List Char} (htext : l.text = c :: cs) :
    skipScalar (byte c) (.ofText (cs ++ rest)) = .ok ((), .ofText rest) := by
  obtain ⟨c', cs', htext', hkind⟩ := h.exists_text_eq
  obtain ⟨rfl, rfl⟩ := List.cons.inj (htext.symm.trans htext')
  have hne : ∀ d : Char, d.toNat < 0x80 → kindOf? d ≠ some .number → byte c ≠ byte d :=
    fun d hd hd' => byte_ne_of_number hkind hd hd'
  have hfirst := (minus_or_digit_iff (toNat_lt_of_kindOf? hkind)).2 hkind
  rw [skipScalar, if_neg (hne 'n' (by decide) (by decide)),
    if_neg (hne 't' (by decide) (by decide)), if_neg (hne 'f' (by decide) (by decide)),
    if_neg (hne '"' (by decide) (by decide)), if_pos hfirst]
  exact skipNumber_ofText h hrest htext

/-- **A value with nothing inside is passed over.**  Its first character opens no container. -/
theorem skipScalar_ofText {c : Char} {cs rest : List Char} (h : ScalarText (c :: cs) rest) :
    opening? (byte c) = none ∧ skipScalar (byte c) (.ofText cs) = .ok ((), .ofText rest) := by
  generalize htext : c :: cs = text at h
  cases h with
  | null =>
      obtain ⟨rfl, rfl⟩ := List.cons.inj htext
      exact ⟨rfl, literal_ofText rfl rest⟩
  | boolTrue =>
      obtain ⟨rfl, rfl⟩ := List.cons.inj htext
      exact ⟨rfl, literal_ofText rfl rest⟩
  | boolFalse =>
      obtain ⟨rfl, rfl⟩ := List.cons.inj htext
      exact ⟨rfl, literal_ofText rfl rest⟩
  | string hraw =>
      obtain ⟨rfl, rfl⟩ := List.cons.inj htext
      exact ⟨rfl, skipString_ofText hraw rest⟩
  | @number l _ hl hrest =>
      obtain ⟨c', cs', hl', hkind⟩ := hl.exists_text_eq
      rw [hl', List.cons_append] at htext
      obtain ⟨rfl, rfl⟩ := List.cons.inj htext
      refine ⟨?_, skipScalar_number hl hrest hl'⟩
      rw [opening?, if_neg (byte_ne_of_number hkind (by decide) (by decide)),
        if_neg (byte_ne_of_number hkind (by decide) (by decide))]

/-! ### Keys -/

/-- The colon is taken off. -/
theorem colon_ofText {cs rest : List Char} (h : skipBlanks cs = ':' :: rest) :
    colon (.ofText cs) = .ok ((), .ofText rest) := by
  rw [colon, bind_of_eq_ok (nextSolid_ofText h (by decide))]
  rfl

/-- What stands before a value is passed over. -/
theorem skipKey_ofText {c : Container} {cs value : List Char} (h : LeadsTo c cs value) :
    skipKey c (.ofText cs) = .ok ((), .ofText value) := by
  cases h with
  | item => rfl
  | member hquote hraw hcolon =>
      rw [skipKey, bind_of_eq_ok (nextSolid_ofText hquote (by decide))]
      simp only [if_true]
      rw [bind_of_eq_ok (skipString_ofText hraw _), colon_ofText hcolon]

/-! ### One turn of the loop -/

/-- A reader that needs a byte and fails without one. -/
theorem needByte_apply {β : Type} (p : Reader (Option UInt8)) (missing : ReadError)
    (f : UInt8 → Reader β) (s : Input) :
    (do
      match ← p with
      | none => throw missing
      | some b => f b : Reader β) s =
      match p s with
      | .error e => .error e
      | .ok (none, _) => .error missing
      | .ok (some b, rest) => f b rest := by
  rw [bind_apply]
  rcases p s with e | ⟨_ | b, rest⟩ <;> rfl

theorem skipFrom_value (outer : List Container) :
    skipFrom .value outer = (do
      match ← nextSolid with
      | none => throw .endInValue
      | some b =>
          match opening? b with
          | some c => skipFrom (.opened c) outer
          | none => do
              skipScalar b
              skipFrom .after outer : Reader Unit) := by
  funext s
  rw [skipFrom, needByte_apply]
  rcases nextSolid s with e | ⟨_ | b, rest⟩
  · rfl
  · rfl
  · dsimp only
    cases opening? b with
    | some c => rfl
    | none =>
        dsimp only
        rw [bind_apply]
        cases skipScalar b rest <;> rfl

theorem skipFrom_opened (c : Container) (outer : List Container) :
    skipFrom (.opened c) outer = (do
      match ← peekSolid with
      | none => throw c.endError
      | some b =>
          if b = c.close then do
            let _ ← nextByte
            skipFrom .after outer
          else do
            skipKey c
            skipFrom .value (c :: outer) : Reader Unit) := by
  funext s
  rw [skipFrom, needByte_apply]
  rcases peekSolid s with e | ⟨_ | b, rest⟩
  · rfl
  · rfl
  · dsimp only
    split
    · rw [bind_apply]
      cases nextByte rest <;> rfl
    · rw [bind_apply]
      cases skipKey c rest <;> rfl

theorem skipFrom_after (c : Container) (outer : List Container) :
    skipFrom .after (c :: outer) = (do
      match ← nextSolid with
      | none => throw c.endError
      | some b =>
          if b = c.close then skipFrom .after outer
          else if b = byte ',' then do
            skipKey c
            skipFrom .value (c :: outer)
          else throw c.separatorError : Reader Unit) := by
  funext s
  rw [skipFrom, needByte_apply]
  rcases nextSolid s with e | ⟨_ | b, rest⟩
  · rfl
  · rfl
  · dsimp only
    split
    · rfl
    · split
      · rw [bind_apply]
        cases skipKey c rest <;> rfl
      · rfl

/-! ### The loop on a text -/

/-- The bytes of a container are those of its characters. -/
theorem Container.close_eq (c : Container) : c.close = byte c.closing := by
  cases c <;> rfl

theorem Container.opening?_byte (c : Container) : opening? (byte c.opening) = some c := by
  cases c <;> rfl

theorem Container.toNat_closing_lt (c : Container) : c.closing.toNat < 0x80 := by
  cases c <;> decide

theorem Container.toNat_opening_lt (c : Container) : c.opening.toNat < 0x80 := by
  cases c <;> decide

/-- A container is opened. -/
theorem skipFrom_opening (c : Container) (outer : List Container) (cs : List Char) :
    skipFrom .value outer (.ofText (c.opening :: cs)) =
      skipFrom (.opened c) outer (.ofText cs) := by
  have hhead : skipBlanks (c.opening :: cs) = c.opening :: cs := by
    cases c <;> rfl
  rw [skipFrom_value, bind_of_eq_ok (nextSolid_ofText hhead c.toNat_opening_lt)]
  simp only [c.opening?_byte]

/-- A container with nothing inside is closed. -/
theorem skipFrom_opened_closing {c : Container} {cs rest : List Char}
    (h : skipBlanks cs = c.closing :: rest) (outer : List Container) :
    skipFrom (.opened c) outer (.ofText cs) = skipFrom .after outer (.ofText rest) := by
  rw [skipFrom_opened, bind_of_eq_ok (peekSolid_ofText h c.toNat_closing_lt)]
  simp only [c.close_eq, if_true]
  rw [bind_of_eq_ok (nextByte_ofText c.toNat_closing_lt rest)]

/-- A container is closed after a value. -/
theorem skipFrom_after_closing {c : Container} {cs rest : List Char}
    (h : skipBlanks cs = c.closing :: rest) (outer : List Container) :
    skipFrom .after (c :: outer) (.ofText cs) = skipFrom .after outer (.ofText rest) := by
  rw [skipFrom_after, bind_of_eq_ok (nextSolid_ofText h c.toNat_closing_lt)]
  simp only [c.close_eq, if_true]

/-- A container goes on after a value. -/
theorem skipFrom_after_comma {cs more : List Char} (h : skipBlanks cs = ',' :: more)
    (c : Container) (outer : List Container) :
    skipFrom .after (c :: outer) (.ofText cs) =
      (skipKey c >>= fun _ => skipFrom .value (c :: outer)) (.ofText more) := by
  have hclose : byte ',' ≠ c.close := by
    cases c <;> decide
  rw [skipFrom_after, bind_of_eq_ok (nextSolid_ofText h (by decide))]
  simp only [hclose, if_false, if_true]

theorem skipBlanks_skipBlanks (cs : List Char) : skipBlanks (skipBlanks cs) = skipBlanks cs :=
  List.dropWhile_idempotent isBlankChar cs

/-- The blanks before a character do not matter. -/
theorem nextSolid_skipBlanks (cs : List Char) :
    nextSolid (.ofText (skipBlanks cs)) = nextSolid (.ofText cs) := by
  rw [nextSolid, nextSolid, skipSpace_ofText, skipSpace_ofText, skipBlanks_skipBlanks]

theorem skipFrom_value_skipBlanks (outer : List Container) (cs : List Char) :
    skipFrom .value outer (.ofText (skipBlanks cs)) = skipFrom .value outer (.ofText cs) := by
  rw [skipFrom_value]
  exact bind_congr_input (nextSolid_skipBlanks cs)

/-- What stands before a value is passed over, and the blanks after it. -/
theorem skipKey_value {c : Container} {cs value : List Char} (h : LeadsTo c cs value)
    (outer : List Container) :
    (skipKey c >>= fun _ => skipFrom .value outer) (.ofText cs) =
      skipFrom .value outer (.ofText (skipBlanks value)) := by
  rw [bind_of_eq_ok (skipKey_ofText h), skipFrom_value_skipBlanks]

/-- The blanks before a key do not matter, nor those before an item. -/
theorem LeadsTo.exists_skipBlanks {c : Container} {cs value : List Char} (h : LeadsTo c cs value) :
    ∃ value', LeadsTo c (skipBlanks cs) value' ∧ skipBlanks value' = skipBlanks value := by
  cases h with
  | item => exact ⟨skipBlanks cs, .item, skipBlanks_skipBlanks cs⟩
  | member hquote hraw hcolon =>
      exact ⟨value, .member ((skipBlanks_skipBlanks cs).trans hquote) hraw hcolon, rfl⟩

/-- A container with something in it is not closed at once. -/
theorem LeadsTo.exists_head {c : Container} {cs value after : List Char} (h : LeadsTo c cs value)
    (hvalue : Scans .value (skipBlanks value) after) :
    ∃ d ds, skipBlanks cs = d :: ds ∧ d.toNat < 0x80 ∧ d ≠ c.closing := by
  cases h with
  | item =>
      obtain ⟨d, ds, kind, hcs, hkind⟩ := hvalue.exists_head
      refine ⟨d, ds, hcs, toNat_lt_of_kindOf? hkind, ?_⟩
      rintro rfl
      exact absurd hkind (by simp [kindOf?, Container.closing])
  | member hquote _ _ => exact ⟨'"', _, hquote, by decide, by decide⟩

/-- An opened container with something in it goes on to its first value. -/
theorem skipFrom_opened_value {c : Container} {cs value after : List Char} (h : LeadsTo c cs value)
    (hvalue : Scans .value (skipBlanks value) after) (outer : List Container) :
    skipFrom (.opened c) outer (.ofText cs) =
      skipFrom .value (c :: outer) (.ofText (skipBlanks value)) := by
  obtain ⟨d, ds, hcs, hascii, hclose⟩ := h.exists_head hvalue
  obtain ⟨value', hlead, hsame⟩ := h.exists_skipBlanks
  have hne : byte d ≠ c.close := by
    rwa [c.close_eq, Ne, byte_inj hascii c.toNat_closing_lt]
  rw [skipFrom_opened, bind_of_eq_ok (peekSolid_ofText hcs hascii)]
  dsimp only
  rw [if_neg hne, ← hcs, skipKey_value hlead, hsame]

/-! ### Whole values -/

/-- The loop runs through a part of a text: over a value, and inside a container over the values
and the closing character, so that the container is no longer open. -/
def Extent.Passed : Extent → List Char → List Char → Prop
  | .value, cs, rest =>
      ∀ outer, skipFrom .value outer (.ofText cs) = skipFrom .after outer (.ofText rest)
  | .inside c, cs, rest =>
      ∀ outer, skipFrom (.opened c) outer (.ofText cs) = skipFrom .after outer (.ofText rest) ∧
        (skipKey c >>= fun _ => skipFrom .value (c :: outer)) (.ofText cs) =
          skipFrom .after outer (.ofText rest)

/-- Whatever has a form is run through.  The stack of open containers is the same for all parts of
a value but for the container around them, so it is general in each case. -/
theorem Scans.passed {e : Extent} {cs rest : List Char} (h : Scans e cs rest) :
    e.Passed cs rest := by
  -- a first value comes after the opening and any other after a comma, so inside a container both
  -- ways to begin are shown at once
  induction h with
  | @scalar cs rest hs =>
      intro outer
      have hblank := (Scans.scalar hs).skipBlanks_eq
      obtain ⟨c, cs, kind, rfl, hkind⟩ := hs.exists_head
      obtain ⟨hopening, hscalar⟩ := skipScalar_ofText hs
      rw [skipFrom_value,
        bind_of_eq_ok (nextSolid_ofText hblank (toNat_lt_of_kindOf? hkind))]
      simp only [hopening]
      rw [bind_of_eq_ok hscalar]
  | @empty c cs rest hclose =>
      intro outer
      rw [skipFrom_opening, skipFrom_opened_closing hclose]
  | @container c cs rest _ ih =>
      intro outer
      rw [skipFrom_opening, (ih outer).1]
  | @last c cs value after rest hlead hvalue hclose ih =>
      intro outer
      have hrest : skipFrom .value (c :: outer) (.ofText (skipBlanks value)) =
          skipFrom .after outer (.ofText rest) := by
        rw [ih (c :: outer), skipFrom_after_closing hclose]
      rw [skipFrom_opened_value hlead hvalue, skipKey_value hlead]
      exact ⟨hrest, hrest⟩
  | @more c cs value after more rest hlead hvalue hcomma _ ih ihs =>
      intro outer
      have hrest : skipFrom .value (c :: outer) (.ofText (skipBlanks value)) =
          skipFrom .after outer (.ofText rest) := by
        rw [ih (c :: outer), skipFrom_after_comma hcomma, (ihs outer).2]
      rw [skipFrom_opened_value hlead hvalue, skipKey_value hlead]
      exact ⟨hrest, hrest⟩

/-- **The loop runs from the beginning of a value to its end**, whatever is open around it. -/
theorem skipFrom_ofText {cs rest : List Char} (h : Scans .value cs rest)
    (outer : List Container) :
    skipFrom .value outer (.ofText cs) = skipFrom .after outer (.ofText rest) :=
  h.passed outer

/-- **A value is passed over**, and the blanks before it. -/
theorem skipValue_ofText {cs rest : List Char} (h : Scans .value (skipBlanks cs) rest) :
    skipValue (.ofText cs) = .ok ((), .ofText rest) := by
  have hend : skipFrom .after [] (.ofText rest) = .ok ((), .ofText rest) := by
    rw [skipFrom]
  rw [skipValue, ← skipFrom_value_skipBlanks, skipFrom_ofText h, hend]

end StreamLexer.Json
