/-
**Readers on texts.**

A reader sees the bytes of a text and the rules speak of its characters.  The characters that the
rules name are each a single byte, and no byte of any other character is among them, so a reader
takes the encoding of a token off the encoding of a text.  A string that is wanted yields the text
between its quotes; of one that is passed over only the end is found.

Main definitions:

* `StreamLexer.Json.Input.ofText` — the encoding of a text, to be read;
* `StreamLexer.Json.leadByte` — the first byte of a character.

Main results:

* `StreamLexer.Json.leadByte_eq_byte_iff` — **the first byte tells an ASCII character**;
* `StreamLexer.Json.nextSolid_ofText`, `StreamLexer.Json.digits_ofText`,
  `StreamLexer.Json.literal_ofText` — tokens are taken off;
* `StreamLexer.Json.stringBytesFrom_eq` — one turn of the loop over the bytes of a string;
* `StreamLexer.Json.readString_ofText`, `StreamLexer.Json.skipString_ofText` — **a string is read
  up to its quote**, and so is one that is passed over.
-/

import StreamLexer.Proofs.JsonSyntax
import StreamLexer.Proofs.LineFraming

set_option relaxedAutoImplicit false
set_option autoImplicit false

namespace StreamLexer.Json

/-- A reader goes on with what its first part yields. -/
theorem bind_of_eq_ok {α β : Type} {p : Reader α} {f : α → Reader β} {s mid : Input} {a : α}
    (h : p s = .ok (a, mid)) : (p >>= f) s = f a mid := by
  rw [bind_apply, h]
  rfl

theorem bind_of_eq_error {α β : Type} {p : Reader α} {f : α → Reader β} {s : Input} {e : ReadError}
    (h : p s = .error e) : (p >>= f) s = .error e := by
  rw [bind_apply, h]
  rfl

/-- What follows a reader depends on what the reader yields and leaves. -/
theorem bind_congr_input {α β : Type} {p q : Reader α} {f : α → Reader β} {s t : Input}
    (h : p s = q t) : (p >>= f) s = (q >>= f) t := by
  rw [bind_apply, bind_apply, h]

/-! ### Characters and bytes -/

/-- The encoding of a text, to be read. -/
def Input.ofText (cs : List Char) : Input := ⟨encodeUtf8 cs, none⟩

/-- The first byte of a character. -/
def leadByte (c : Char) : UInt8 := (String.utf8EncodeChar c).headD 0

theorem toNat_byte {c : Char} (h : c.toNat < 0x80) : (byte c).toNat = c.toNat := by
  rw [byte, UInt8.toNat_ofNat']
  omega

theorem byte_inj {c d : Char} (hc : c.toNat < 0x80) (hd : d.toNat < 0x80) :
    byte c = byte d ↔ c = d := by
  rw [← UInt8.toNat_inj, toNat_byte hc, toNat_byte hd]
  exact ⟨fun h => Char.ext (UInt32.toNat_inj.1 h), fun h => by rw [h]⟩

theorem utf8EncodeChar_ascii {c : Char} (h : c.toNat < 0x80) :
    String.utf8EncodeChar c = [byte c] := by
  have hle : c.val.toNat ≤ 0x7F := Nat.le_of_lt_succ h
  unfold String.utf8EncodeChar
  simp only
  rw [if_pos hle]
  rfl

/-- No byte of another character is an ASCII character. -/
theorem le_of_mem_utf8EncodeChar {c : Char} (h : 0x80 ≤ c.toNat) {b : UInt8}
    (hb : b ∈ String.utf8EncodeChar c) : 0x80 ≤ b.toNat := by
  rcases utf8EncodeChar_cases c with ⟨hlt, _⟩ | hsequence
  · exact absurd hlt (Nat.not_lt.2 h)
  · exact hsequence.le_of_mem hb

theorem exists_utf8EncodeChar_eq (c : Char) :
    ∃ tail, String.utf8EncodeChar c = leadByte c :: tail := by
  unfold leadByte
  cases h : String.utf8EncodeChar c with
  | nil => exact absurd h (by simp)
  | cons b tail => exact ⟨tail, rfl⟩

theorem leadByte_ascii {c : Char} (h : c.toNat < 0x80) : leadByte c = byte c := by
  rw [leadByte, utf8EncodeChar_ascii h]
  rfl

theorem le_leadByte {c : Char} (h : 0x80 ≤ c.toNat) : 0x80 ≤ (leadByte c).toNat := by
  obtain ⟨tail, htail⟩ := exists_utf8EncodeChar_eq c
  exact le_of_mem_utf8EncodeChar h (htail ▸ List.mem_cons_self)

/-- **The first byte tells an ASCII character.** -/
theorem leadByte_eq_byte_iff {c d : Char} (hd : d.toNat < 0x80) :
    leadByte c = byte d ↔ c = d := by
  rcases Nat.lt_or_ge c.toNat 0x80 with hc | hc
  · rw [leadByte_ascii hc, byte_inj hc hd]
  · have hlead := le_leadByte hc
    constructor
    · intro h
      rw [h, toNat_byte hd] at hlead
      omega
    · rintro rfl
      omega

theorem isDigit_iff {b : UInt8} : isDigit b = true ↔ 48 ≤ b.toNat ∧ b.toNat ≤ 57 := by
  simp only [isDigit, Bool.and_eq_true, decide_eq_true_eq]
  exact Iff.rfl

theorem isDigit_leadByte (c : Char) : isDigit (leadByte c) = c.isDigit := by
  rw [Bool.eq_iff_iff, isDigit_iff, Char.isDigit_iff_toNat]
  have hzero : '0'.toNat = 48 := rfl
  have hnine : '9'.toNat = 57 := rfl
  rcases Nat.lt_or_ge c.toNat 0x80 with hc | hc
  · rw [leadByte_ascii hc, toNat_byte hc, hzero, hnine]
  · have hlead := le_leadByte hc
    omega

theorem isSpace_leadByte (c : Char) : isSpace (leadByte c) = isBlankChar c := by
  rw [Bool.eq_iff_iff]
  simp only [isSpace, isBlankChar, Bool.or_eq_true, beq_iff_eq, decide_eq_true_eq]
  rw [leadByte_eq_byte_iff (by decide), leadByte_eq_byte_iff (by decide),
    leadByte_eq_byte_iff (by decide), leadByte_eq_byte_iff (by decide)]

theorem toNat_lt_of_isBlankChar {c : Char} (h : isBlankChar c = true) : c.toNat < 0x80 := by
  have hc : ((c = ' ' ∨ c = '\n') ∨ c = '\t') ∨ c = '\r' := by
    simpa [isBlankChar] using h
  rcases hc with ((rfl | rfl) | rfl) | rfl
  all_goals decide

theorem toNat_lt_of_isDigit {c : Char} (h : c.isDigit = true) : c.toNat < 0x80 := by
  have hle : c.toNat ≤ '9'.toNat := (Char.isDigit_iff_toNat.1 h).2
  have hnine : '9'.toNat = 57 := rfl
  omega

theorem isDigit_byte {c : Char} (h : c.isDigit = true) : isDigit (byte c) = true := by
  rw [← leadByte_ascii (toNat_lt_of_isDigit h), isDigit_leadByte, h]

/-! ### Encodings -/

theorem encodeUtf8_cons (c : Char) (cs : List Char) :
    encodeUtf8 (c :: cs) = String.utf8EncodeChar c ++ encodeUtf8 cs :=
  List.flatMap_cons

theorem encodeUtf8_cons_ascii {c : Char} (h : c.toNat < 0x80) (cs : List Char) :
    encodeUtf8 (c :: cs) = byte c :: encodeUtf8 cs := by
  rw [encodeUtf8_cons, utf8EncodeChar_ascii h, List.singleton_append]

theorem exists_encodeUtf8_cons_eq (c : Char) (cs : List Char) :
    ∃ tail, encodeUtf8 (c :: cs) = leadByte c :: tail := by
  obtain ⟨tail, htail⟩ := exists_utf8EncodeChar_eq c
  exact ⟨tail ++ encodeUtf8 cs, by rw [encodeUtf8_cons, htail, List.cons_append]⟩

theorem encodeUtf8_ascii {ds : List Char} (h : ∀ c ∈ ds, c.toNat < 0x80) :
    encodeUtf8 ds = ds.map byte := by
  induction ds with
  | nil => rfl
  | cons d ds ih =>
      rw [encodeUtf8_cons_ascii (h d List.mem_cons_self),
        ih fun c hc => h c (List.mem_cons_of_mem d hc), List.map_cons]

/-! ### Single characters -/

theorem nextByte_ofText {c : Char} (h : c.toNat < 0x80) (cs : List Char) :
    nextByte (.ofText (c :: cs)) = .ok (some (byte c), .ofText cs) := by
  simp only [nextByte, Input.ofText, encodeUtf8_cons_ascii h]

/-- A look at the next byte tells the next character. -/
theorem peekByte_ofText (cs : List Char) :
    peekByte (.ofText cs) = .ok (cs.head?.map leadByte, .ofText cs) := by
  cases cs with
  | nil => rfl
  | cons c cs =>
      obtain ⟨tail, htail⟩ := exists_encodeUtf8_cons_eq c cs
      simp only [peekByte, Input.ofText, htail, List.head?_cons, Option.map_some]

/-- The blanks at the front are characters, or bytes. -/
theorem skipSpace_ofText (cs : List Char) :
    (Input.ofText cs).skipSpace = .ofText (skipBlanks cs) := by
  have hbytes : (encodeUtf8 cs).dropWhile isSpace = encodeUtf8 (skipBlanks cs) := by
    induction cs with
    | nil => rfl
    | cons c cs ih =>
        obtain ⟨tail, htail⟩ := exists_encodeUtf8_cons_eq c cs
        cases hc : isBlankChar c with
        | true =>
            have hascii := toNat_lt_of_isBlankChar hc
            rw [encodeUtf8_cons_ascii hascii, List.dropWhile_cons_of_pos, ih, skipBlanks,
              skipBlanks, List.dropWhile_cons_of_pos hc]
            rw [← leadByte_ascii hascii, isSpace_leadByte, hc]
        | false =>
            rw [skipBlanks, List.dropWhile_cons_of_neg (by simp [hc]), htail,
              List.dropWhile_cons_of_neg (by simp [isSpace_leadByte, hc])]
  simp only [Input.skipSpace, Input.ofText, hbytes]

/-- The character after the blanks is taken off. -/
theorem nextSolid_ofText {c : Char} {cs rest : List Char} (h : skipBlanks cs = c :: rest)
    (hc : c.toNat < 0x80) : nextSolid (.ofText cs) = .ok (some (byte c), .ofText rest) := by
  rw [nextSolid, skipSpace_ofText, h, nextByte_ofText hc]

theorem nextSolid_ofText_end {cs : List Char} (h : skipBlanks cs = []) :
    nextSolid (.ofText cs) = .ok (none, .ofText []) := by
  rw [nextSolid, skipSpace_ofText, h]
  rfl

/-- The character after the blanks is looked at. -/
theorem peekSolid_ofText {c : Char} {cs rest : List Char} (h : skipBlanks cs = c :: rest)
    (hc : c.toNat < 0x80) :
    peekSolid (.ofText cs) = .ok (some (byte c), .ofText (c :: rest)) := by
  rw [peekSolid, skipSpace_ofText, h, peekByte_ofText, List.head?_cons, Option.map_some,
    leadByte_ascii hc]

/-- The letters of a name are taken off. -/
theorem literal_ofText {letters : List Char} (h : letters.all (·.toNat < 0x80) = true)
    (rest : List Char) :
    literal letters (.ofText (letters ++ rest)) = .ok ((), .ofText rest) := by
  induction letters with
  | nil => rfl
  | cons c letters ih =>
      rw [List.all_cons, Bool.and_eq_true, decide_eq_true_eq] at h
      rw [List.cons_append, literal, bind_of_eq_ok (nextByte_ofText h.1 _)]
      dsimp only
      rw [if_pos rfl]
      exact ih h.2

/-- A run of digits is taken off. -/
theorem digits_ofText {ds rest : List Char} (hds : ∀ c ∈ ds, c.isDigit = true)
    (hrest : ∀ c ∈ rest.head?, c.isDigit = false) :
    digits (.ofText (ds ++ rest)) = .ok (ds.map byte, .ofText rest) := by
  have hencode : encodeUtf8 (ds ++ rest) = ds.map byte ++ encodeUtf8 rest := by
    rw [encodeUtf8_append, encodeUtf8_ascii fun c hc => toNat_lt_of_isDigit (hds c hc)]
  have hbytes : ∀ b ∈ ds.map byte, isDigit b = true := by
    intro b hb
    obtain ⟨c, hc, rfl⟩ := List.mem_map.1 hb
    exact isDigit_byte (hds c hc)
  simp only [digits, Input.ofText, hencode, List.takeWhile_append_of_pos hbytes,
    List.dropWhile_append_of_pos hbytes]
  -- what follows may be a character of several bytes; the first of them already ends the digits
  cases rest with
  | nil => simp [encodeUtf8, Input.beyond]
  | cons c cs =>
      obtain ⟨tail, htail⟩ := exists_encodeUtf8_cons_eq c cs
      have hlead : ¬ isDigit (leadByte c) = true := by
        rw [isDigit_leadByte, hrest c rfl]
        exact Bool.false_ne_true
      rw [htail, List.dropWhile_cons_of_neg hlead, List.takeWhile_cons_of_neg hlead,
        List.append_nil]

/-! ### Strings -/

/-- The next character of a string is taken off. -/
theorem byteInString_ofText {c : Char} (h : c.toNat < 0x80) (cs : List Char) :
    byteInString (.ofText (c :: cs)) = .ok (byte c, .ofText cs) := by
  rw [byteInString, bind_of_eq_ok (nextByte_ofText h cs)]
  rfl

theorem byte_le_byte_iff {c d : Char} (hc : c.toNat < 0x80) (hd : d.toNat < 0x80) :
    byte c ≤ byte d ↔ c ≤ d := by
  rw [UInt8.le_iff_toNat_le, toNat_byte hc, toNat_byte hd]
  exact Iff.rfl

/-- A hexadecimal digit has the same value as a byte and as a character. -/
theorem hexValue?_byte {c : Char} (hc : c.toNat < 0x80) :
    hexValue? (byte c) = hexDigitValue? c := by
  have hdigit : isDigit (byte c) = c.isDigit := by
    rw [← leadByte_ascii hc, isDigit_leadByte]
  unfold hexValue? hexDigitValue?
  simp only [hdigit, toNat_byte hc, Bool.and_eq_true, decide_eq_true_eq,
    byte_le_byte_iff (c := 'a') (by decide) hc, byte_le_byte_iff (d := 'f') hc (by decide),
    byte_le_byte_iff (c := 'A') (by decide) hc, byte_le_byte_iff (d := 'F') hc (by decide)]
  split
  · rfl
  · split
    · next hlower =>
        have hge : 97 ≤ c.toNat := hlower.1
        change some (c.toNat - 87) = some (c.toNat - 97 + 10)
        congr 1
        omega
    · split
      · next hupper =>
          have hge : 65 ≤ c.toNat := hupper.1
          change some (c.toNat - 55) = some (c.toNat - 65 + 10)
          congr 1
          omega
      · rfl

theorem toNat_lt_of_hexDigitValue? {c : Char} {n : Nat} (h : hexDigitValue? c = some n) :
    c.toNat < 0x80 := by
  unfold hexDigitValue? at h
  split at h
  · next hdigit => exact toNat_lt_of_isDigit hdigit
  · split at h
    · next hlower =>
        have hle : c.toNat ≤ 102 := hlower.2
        omega
    · split at h
      · next hupper =>
          have hle : c.toNat ≤ 70 := hupper.2
          omega
      · cases h

/-- Four digits are read as the number that they write. -/
theorem hexEscape_ofText {ds : List Char} {n : Nat} (h : HexUnit ds n) (rest : List Char) :
    hexEscape (.ofText (ds ++ rest)) = .ok (n, .ofText rest) := by
  cases h with
  | @digits a b c d p q r s ha hb hc hd =>
      have ha' := toNat_lt_of_hexDigitValue? ha
      have hb' := toNat_lt_of_hexDigitValue? hb
      have hc' := toNat_lt_of_hexDigitValue? hc
      have hd' := toNat_lt_of_hexDigitValue? hd
      have hn : ((p * 16 + q) * 16 + r) * 16 + s = 0x1000 * p + 0x100 * q + 0x10 * r + s := by
        omega
      rw [List.cons_append, List.cons_append, List.cons_append, List.cons_append, List.nil_append,
        hexEscape, bind_of_eq_ok (byteInString_ofText ha' _),
        bind_of_eq_ok (byteInString_ofText hb' _), bind_of_eq_ok (byteInString_ofText hc' _),
        bind_of_eq_ok (byteInString_ofText hd' _)]
      simp only [hexValue?_byte, ha, hb, hc, hd, ha', hb', hc', hd', hn]
      rfl

/-- The letter after a backslash is a character of ASCII, and stands for the same character. -/
theorem unescapeLetter?_byte {l c : Char} (h : letterEscape? l = some c) :
    l.toNat < 0x80 ∧ unescapeLetter? (byte l) = some c := by
  unfold letterEscape? at h
  split at h <;> cases h
  all_goals exact ⟨by decide, rfl⟩

theorem escape_letter {l c : Char} (h : letterEscape? l = some c) (paired : Bool)
    (rest : List Char) :
    escape paired (.ofText (l :: rest)) = .ok (encodeUtf8 [c], .ofText rest) := by
  obtain ⟨hascii, hletter⟩ := unescapeLetter?_byte h
  rw [escape, bind_of_eq_ok (byteInString_ofText hascii _)]
  simp only [hletter]
  rfl

/-- The letter before four digits. -/
theorem escape_unit (paired : Bool) (cs : List Char) :
    escape paired (.ofText ('u' :: cs)) =
      (if paired then do
        let c ← codePointEscape
        pure (encodeUtf8 [c])
      else do
        let _ ← hexEscape
        pure [] : Reader Bytes) (.ofText cs) := by
  have hletter : unescapeLetter? (byte 'u') = none := rfl
  rw [escape, bind_of_eq_ok (byteInString_ofText (by decide) _)]
  simp only [hletter, if_true]

theorem expectInString_ofText {c : Char} (h : c.toNat < 0x80) (otherwise : ReadError)
    (cs : List Char) :
    expectInString c otherwise (.ofText (c :: cs)) = .ok ((), .ofText cs) := by
  rw [expectInString, bind_of_eq_ok (byteInString_ofText h cs)]
  simp only [if_true]
  rfl

/-- A character by its number. -/
theorem codePointEscape_unit {ds : List Char} {n : Nat} (h : HexUnit ds n)
    (hn : n < 0xD800 ∨ 0xDFFF < n) (rest : List Char) :
    codePointEscape (.ofText (ds ++ rest)) = .ok (Char.ofNat n, .ofText rest) := by
  have htrailing : isTrailing n = false := by
    simp only [isTrailing, Bool.and_eq_false_iff, decide_eq_false_iff_not]
    omega
  have hleading : isLeading n = false := by
    simp only [isLeading, Bool.and_eq_false_iff, decide_eq_false_iff_not]
    omega
  rw [codePointEscape, bind_of_eq_ok (hexEscape_ofText h rest)]
  simp only [htrailing, hleading, Bool.false_eq_true, if_false]
  rfl

/-- A character by the two halves of a pair. -/
theorem codePointEscape_pair {ds ds' : List Char} {high low : Nat} (h : HexUnit ds high)
    (h' : HexUnit ds' low) (hhigh : 0xD800 ≤ high ∧ high ≤ 0xDBFF)
    (hlow : 0xDC00 ≤ low ∧ low ≤ 0xDFFF) (rest : List Char) :
    codePointEscape (.ofText (ds ++ '\\' :: 'u' :: (ds' ++ rest))) =
      .ok (Char.ofNat (0x10000 + 0x400 * (high - 0xD800) + (low - 0xDC00)), .ofText rest) := by
  have htrailing : isTrailing high = false := by
    simp only [isTrailing, Bool.and_eq_false_iff, decide_eq_false_iff_not]
    omega
  have hleading : isLeading high = true := by
    simp only [isLeading, Bool.and_eq_true, decide_eq_true_eq]
    omega
  have htrailing' : isTrailing low = true := by
    simp only [isTrailing, Bool.and_eq_true, decide_eq_true_eq]
    omega
  rw [codePointEscape, bind_of_eq_ok (hexEscape_ofText h _)]
  simp only [htrailing, hleading, Bool.false_eq_true, if_false, if_true]
  rw [bind_of_eq_ok (expectInString_ofText (by decide) _ _),
    bind_of_eq_ok (expectInString_ofText (by decide) _ _), bind_of_eq_ok (hexEscape_ofText h' rest)]
  simp only [htrailing', if_true, Nat.mul_comm (high - 0xD800)]
  rfl

/-- **One turn of the loop** over the bytes of a string. -/
theorem stringBytesFrom_eq (paired : Bool) (reversed : Bytes) :
    stringBytesFrom paired reversed = (do
      let b ← byteInString
      if b = byte '"' then pure reversed.reverse
      else if b = byte '\\' then do
        let bytes ← escape paired
        stringBytesFrom paired (bytes.reverse ++ reversed)
      else if b < 0x20 then throw .controlCharacter
      else stringBytesFrom paired (b :: reversed) : Reader Bytes) := by
  funext s
  rw [stringBytesFrom]
  rcases hb : byteInString s with e | ⟨b, rest⟩
  · rw [bind_of_eq_error hb]
  · rw [bind_of_eq_ok hb]
    dsimp only
    split
    · rfl
    · split
      · rw [bind_apply]
        cases escape paired rest <;> rfl
      · split
        · rfl
        · rfl

section StringTurn

variable {paired : Bool} {reversed : Bytes} {s rest : Input}

theorem stringBytesFrom_quote (h : byteInString s = .ok (byte '"', rest)) :
    stringBytesFrom paired reversed s = .ok (reversed.reverse, rest) := by
  rw [stringBytesFrom_eq, bind_of_eq_ok h, if_pos rfl]
  rfl

theorem stringBytesFrom_escape {bytes : Bytes} {rest' : Input}
    (h : byteInString s = .ok (byte '\\', rest))
    (hescape : escape paired rest = .ok (bytes, rest')) :
    stringBytesFrom paired reversed s =
      stringBytesFrom paired (bytes.reverse ++ reversed) rest' := by
  rw [stringBytesFrom_eq, bind_of_eq_ok h, if_neg (by decide), if_pos rfl, bind_of_eq_ok hescape]

theorem stringBytesFrom_plain {b : UInt8} (h : byteInString s = .ok (b, rest))
    (hquote : b ≠ byte '"') (hbackslash : b ≠ byte '\\') (hcontrol : 0x20 ≤ b.toNat) :
    stringBytesFrom paired reversed s = stringBytesFrom paired (b :: reversed) rest := by
  have hge : ¬ b < 0x20 := by
    rw [UInt8.lt_iff_toNat_lt]
    exact Nat.not_lt.2 hcontrol
  rw [stringBytesFrom_eq, bind_of_eq_ok h, if_neg hquote, if_neg hbackslash, if_neg hge]

end StringTurn

/-- The bytes of a character beyond ASCII stand for themselves. -/
theorem stringBytesFrom_high {bytes : Bytes} (h : ∀ b ∈ bytes, 0x80 ≤ b.toNat) (paired : Bool)
    (reversed more : Bytes) :
    stringBytesFrom paired reversed ⟨bytes ++ more, none⟩ =
      stringBytesFrom paired (bytes.reverse ++ reversed) ⟨more, none⟩ := by
  induction bytes generalizing reversed with
  | nil => rfl
  | cons b bytes ih =>
      have hb : 0x80 ≤ b.toNat := h b List.mem_cons_self
      have hne : ∀ c : Char, c.toNat < 0x80 → b ≠ byte c := by
        rintro c hc rfl
        rw [toNat_byte hc] at hb
        omega
      have hnext : byteInString ⟨b :: (bytes ++ more), none⟩ = .ok (b, ⟨bytes ++ more, none⟩) :=
        rfl
      rw [List.cons_append, stringBytesFrom_plain hnext (hne _ (by decide)) (hne _ (by decide))
        (by omega), ih fun b' hb' => h b' (List.mem_cons_of_mem b hb'), List.reverse_cons,
        List.append_assoc, List.singleton_append]

/-- A character that stands for itself. -/
theorem stringBytesFrom_char {c : Char} (hcontrol : 0x20 ≤ c.toNat) (hquote : c ≠ '"')
    (hbackslash : c ≠ '\\') (paired : Bool) (reversed : Bytes) (rest : List Char) :
    stringBytesFrom paired reversed (.ofText (c :: rest)) =
      stringBytesFrom paired ((encodeUtf8 [c]).reverse ++ reversed) (.ofText rest) := by
  rcases Nat.lt_or_ge c.toNat 0x80 with hc | hc
  · rw [stringBytesFrom_plain (byteInString_ofText hc rest) (by rwa [Ne, byte_inj hc (by decide)])
      (by rwa [Ne, byte_inj hc (by decide)]) (by rwa [toNat_byte hc]), encodeUtf8_cons_ascii hc]
    rfl
  · have hsingle : encodeUtf8 [c] = String.utf8EncodeChar c := List.append_nil _
    rw [hsingle, Input.ofText, encodeUtf8_cons,
      stringBytesFrom_high fun b hb => le_of_mem_utf8EncodeChar hc hb]
    rfl

/-- A character between quotes is read as its encoding. -/
theorem stringBytesFrom_charText {part : List Char} {c : Char} (h : CharText part c)
    (reversed : Bytes) (rest : List Char) :
    stringBytesFrom true reversed (.ofText (part ++ rest)) =
      stringBytesFrom true ((encodeUtf8 [c]).reverse ++ reversed) (.ofText rest) := by
  cases h with
  | plain hcontrol hquote hbackslash =>
      exact stringBytesFrom_char hcontrol hquote hbackslash true reversed rest
  | letter hl =>
      exact stringBytesFrom_escape (byteInString_ofText (by decide) _) (escape_letter hl true rest)
  | @unit ds n hds hn =>
      have hescape : escape true (.ofText ('u' :: (ds ++ rest))) =
          .ok (encodeUtf8 [Char.ofNat n], .ofText rest) := by
        rw [escape_unit, if_pos rfl, bind_of_eq_ok (codePointEscape_unit hds hn rest)]
        rfl
      exact stringBytesFrom_escape (byteInString_ofText (by decide) _) hescape
  | @pair ds ds' high low hhigh hlow hge hle hge' hle' =>
      have hescape : escape true (.ofText ('u' :: (ds ++ '\\' :: 'u' :: (ds' ++ rest)))) =
          .ok (encodeUtf8 [Char.ofNat (0x10000 + 0x400 * (high - 0xD800) + (low - 0xDC00))],
            .ofText rest) := by
        rw [escape_unit, if_pos rfl,
          bind_of_eq_ok (codePointEscape_pair hhigh hlow ⟨hge, hle⟩ ⟨hge', hle'⟩ rest)]
        rfl
      simp only [List.cons_append, List.append_assoc]
      exact stringBytesFrom_escape (byteInString_ofText (by decide) _) hescape

theorem stringBytesFrom_stringText {raw cs : List Char} (h : StringText raw cs) (reversed : Bytes)
    (rest : List Char) :
    stringBytesFrom true reversed (.ofText (raw ++ '"' :: rest)) =
      .ok (reversed.reverse ++ encodeUtf8 cs, .ofText rest) := by
  induction h generalizing reversed with
  | nil =>
      rw [List.nil_append, stringBytesFrom_quote (byteInString_ofText (by decide) rest)]
      simp [encodeUtf8]
  | @cons part raw c cs hc _ ih =>
      rw [List.append_assoc, stringBytesFrom_charText hc, ih, List.reverse_append,
        List.reverse_reverse, List.append_assoc, ← encodeUtf8_append, List.singleton_append]

/-- **A string is read up to its quote**, as the text between its quotes. -/
theorem readString_ofText {raw cs : List Char} (h : StringText raw cs) (rest : List Char) :
    readString (.ofText (raw ++ '"' :: rest)) = .ok (cs, .ofText rest) := by
  have hbytes : stringBytes true (.ofText (raw ++ '"' :: rest)) =
      .ok (encodeUtf8 cs, .ofText rest) := stringBytesFrom_stringText h [] rest
  rw [readString, bind_of_eq_ok hbytes]
  simp only [decodeUtf8?_encodeUtf8]
  rfl

theorem exists_stringBytesFrom_rawText {raw : List Char} (h : RawText raw) (reversed : Bytes)
    (rest : List Char) :
    ∃ bytes, stringBytesFrom false reversed (.ofText (raw ++ '"' :: rest)) =
      .ok (bytes, .ofText rest) := by
  induction h generalizing reversed with
  | nil => exact ⟨_, stringBytesFrom_quote (byteInString_ofText (by decide) rest)⟩
  | @cons part raw hc _ ih =>
      rw [List.append_assoc]
      cases hc with
      | plain hcontrol hquote hbackslash =>
          rw [List.singleton_append, stringBytesFrom_char hcontrol hquote hbackslash]
          exact ih _
      | letter hl =>
          rw [List.cons_append, List.singleton_append,
            stringBytesFrom_escape (byteInString_ofText (by decide) _) (escape_letter hl false _)]
          exact ih _
      | @unit ds n hds =>
          have hescape : escape false (.ofText ('u' :: (ds ++ (raw ++ '"' :: rest)))) =
              .ok ([], .ofText (raw ++ '"' :: rest)) := by
            rw [escape_unit, if_neg Bool.false_ne_true, bind_of_eq_ok (hexEscape_ofText hds _)]
            rfl
          rw [List.cons_append, List.cons_append,
            stringBytesFrom_escape (byteInString_ofText (by decide) _) hescape]
          exact ih _

/-- **A string that is passed over is read up to its quote.** -/
theorem skipString_ofText {raw : List Char} (h : RawText raw) (rest : List Char) :
    skipString (.ofText (raw ++ '"' :: rest)) = .ok ((), .ofText rest) := by
  obtain ⟨bytes, hbytes⟩ := exists_stringBytesFrom_rawText h [] rest
  have hstring : stringBytes false (.ofText (raw ++ '"' :: rest)) = .ok (bytes, .ofText rest) :=
    hbytes
  rw [skipString, bind_of_eq_ok hstring]
  rfl

end StreamLexer.Json
