/-
**The grammar of JSON.**

What a JSON text means is said here without a reader, by rules for what a part of it is read as and
what is left after it.  Blanks may stand before every token and are passed over.  A number goes on
for as long as characters of a number come.  The rules leave no choice: a text is read as one value
at most.

Main definitions:

* `StreamLexer.Json.Literal` — a number as it is written, and the value nearest to it;
* `StreamLexer.Json.CharText`, `StreamLexer.Json.StringText` — a character and a text in quotes;
* `StreamLexer.Json.Value` — the values;
* `StreamLexer.Json.Reads` — **the rules**: a part at the head of a text, and the rest of it;
* `StreamLexer.Json.Reads.OnlyReading` — what can be read in one way only;
* `StreamLexer.Json.IsJson` — a whole text, and its value.

Main results:

* `StreamLexer.Json.Literal.unique`, `StreamLexer.Json.StringText.unique` — numbers and strings end
  in one place, and are read in one way;
* `StreamLexer.Json.Reads.unique` — **every part of a text is read in one way**;
* `StreamLexer.Json.IsJson.unique` — a text has one value at most.
-/

import StreamLexer.Proofs.NumberLayout

set_option relaxedAutoImplicit false
set_option autoImplicit false

namespace StreamLexer.Json

/-! ### Numbers -/

/-- The sign of an exponent, if it has one. -/
inductive ExponentSign where
  | absent
  | plus
  | minus
deriving DecidableEq, Repr

def ExponentSign.text : ExponentSign → List Char
  | absent => []
  | plus => ['+']
  | minus => ['-']

/-- A power of ten as it is written. -/
structure Exponent where
  /-- The letter is a capital. -/
  capital : Bool
  sign : ExponentSign
  digits : List Char
deriving DecidableEq, Repr

namespace Exponent

def text (e : Exponent) : List Char :=
  (if e.capital then 'E' else 'e') :: (e.sign.text ++ e.digits)

/-- The power of ten. -/
def value (e : Exponent) : Int :=
  match e.sign with
  | .minus => -(digitsValue e.digits : Int)
  | _ => digitsValue e.digits

structure WellFormed (e : Exponent) : Prop where
  digits_ne : e.digits ≠ []
  isDigit_digits : ∀ c ∈ e.digits, c.isDigit = true

end Exponent

/-- **A number as it is written.** -/
structure Literal where
  negative : Bool
  mantissa : Mantissa
  exponent : Option Exponent
deriving DecidableEq, Repr

namespace Literal

def exponentText (l : Literal) : List Char :=
  match l.exponent with
  | none => []
  | some e => e.text

def text (l : Literal) : List Char :=
  (if l.negative then ['-'] else []) ++ (l.mantissa.text ++ l.exponentText)

/-- The power of ten that the mantissa is scaled by. -/
def scale (l : Literal) : Int :=
  match l.exponent with
  | none => 0
  | some e => e.value

/-- **The double-precision value nearest to a number**, with its sign. -/
def toBinary64 (l : Literal) : Binary64 :=
  (l.mantissa.toDecimal l.scale).toBinary64.withSign l.negative

structure WellFormed (l : Literal) : Prop where
  mantissa : l.mantissa.WellFormed
  exponent : ∀ e, l.exponent = some e → e.WellFormed

end Literal

/-- No character of a number comes next. -/
def EndsNumber (rest : List Char) : Prop :=
  ∀ c ∈ rest.head?, c.isDigit = false ∧ c ≠ '.' ∧ c ≠ 'e' ∧ c ≠ 'E'

/-- Two runs of digits at the head of one text are the same. -/
theorem digits_unique {ds ds' rest rest' : List Char} (h : ∀ c ∈ ds, c.isDigit = true)
    (h' : ∀ c ∈ ds', c.isDigit = true) (hrest : ∀ c ∈ rest.head?, c.isDigit = false)
    (hrest' : ∀ c ∈ rest'.head?, c.isDigit = false) (he : ds ++ rest = ds' ++ rest') :
    ds = ds' ∧ rest = rest' := by
  obtain ⟨htake, hdrop⟩ := span_digits h hrest
  obtain ⟨htake', hdrop'⟩ := span_digits h' hrest'
  rw [he] at htake hdrop
  exact ⟨htake.symm.trans htake', hdrop.symm.trans hdrop'⟩

theorem EndsNumber.isDigit_eq {rest : List Char} (h : EndsNumber rest) :
    ∀ c ∈ rest.head?, c.isDigit = false :=
  fun c hc => (h c hc).1

/-- What an exponent shows after its letter tells its sign. -/
theorem ExponentSign.unique {sign sign' : ExponentSign} {ds ds' rest rest' : List Char}
    (h : ds ≠ [] ∧ ∀ c ∈ ds, c.isDigit = true) (h' : ds' ≠ [] ∧ ∀ c ∈ ds', c.isDigit = true)
    (he : sign.text ++ (ds ++ rest) = sign'.text ++ (ds' ++ rest')) :
    sign = sign' ∧ ds ++ rest = ds' ++ rest' := by
  obtain ⟨c, cs, rfl⟩ := List.exists_cons_of_ne_nil h.1
  obtain ⟨c', cs', rfl⟩ := List.exists_cons_of_ne_nil h'.1
  have hfirst : ∀ d, Char.isDigit d = false → c ≠ d := by
    rintro d hd rfl
    exact absurd (h.2 c List.mem_cons_self) (Bool.eq_false_iff.1 hd)
  have hsecond : ∀ d, Char.isDigit d = false → c' ≠ d := by
    rintro d hd rfl
    exact absurd (h'.2 c' List.mem_cons_self) (Bool.eq_false_iff.1 hd)
  cases sign with
  | absent =>
      cases sign' with
      | absent => exact ⟨rfl, he⟩
      | plus => exact absurd (List.cons.inj he).1 (hfirst '+' rfl)
      | minus => exact absurd (List.cons.inj he).1 (hfirst '-' rfl)
  | plus =>
      cases sign' with
      | absent => exact absurd (List.cons.inj he).1.symm (hsecond '+' rfl)
      | plus => exact ⟨rfl, (List.cons.inj he).2⟩
      | minus => exact absurd (List.cons.inj he).1 (by decide)
  | minus =>
      cases sign' with
      | absent => exact absurd (List.cons.inj he).1.symm (hsecond '-' rfl)
      | plus => exact absurd (List.cons.inj he).1 (by decide)
      | minus => exact ⟨rfl, (List.cons.inj he).2⟩

theorem Exponent.unique {e e' : Exponent} {rest rest' : List Char} (h : e.WellFormed)
    (h' : e'.WellFormed) (hrest : EndsNumber rest) (hrest' : EndsNumber rest')
    (he : e.text ++ rest = e'.text ++ rest') : e = e' ∧ rest = rest' := by
  obtain ⟨capital, sign, ds⟩ := e
  obtain ⟨capital', sign', ds'⟩ := e'
  simp only [text, List.cons_append, List.append_assoc] at he
  obtain ⟨hletter, hmore⟩ := List.cons.inj he
  have hcapital : capital = capital' := by
    cases capital <;> cases capital' <;> simp_all
  obtain ⟨rfl, hdigits⟩ := ExponentSign.unique ⟨h.digits_ne, h.isDigit_digits⟩
    ⟨h'.digits_ne, h'.isDigit_digits⟩ hmore
  obtain ⟨rfl, rfl⟩ := digits_unique h.isDigit_digits h'.isDigit_digits hrest.isDigit_eq
    hrest'.isDigit_eq hdigits
  exact ⟨by rw [hcapital], rfl⟩

namespace Literal

variable {l l' : Literal} {rest rest' : List Char}

/-- After the mantissa comes neither a digit nor a point. -/
theorem head?_exponentText (l : Literal) (h : EndsNumber rest) :
    ∀ c ∈ (l.exponentText ++ rest).head?, c.isDigit = false ∧ c ≠ '.' := by
  unfold exponentText
  cases l.exponent with
  | none =>
      intro c hc
      exact ⟨(h c hc).1, (h c hc).2.1⟩
  | some e =>
      intro c hc
      obtain rfl : (if e.capital then 'E' else 'e') = c := Option.some.inj hc
      cases e.capital <;> decide

theorem exponent_unique (h : l.WellFormed) (h' : l'.WellFormed) (hrest : EndsNumber rest)
    (hrest' : EndsNumber rest') (he : l.exponentText ++ rest = l'.exponentText ++ rest') :
    l.exponent = l'.exponent ∧ rest = rest' := by
  have hletter : ∀ (e : Exponent) (cs : List Char), ¬ EndsNumber (e.text ++ cs) := by
    intro e cs hends
    obtain ⟨_, _, hsmall, hcapital⟩ := hends (if e.capital then 'E' else 'e') rfl
    cases hc : e.capital <;> simp_all
  have hwell := h.exponent
  have hwell' := h'.exponent
  unfold exponentText at he
  cases hl : l.exponent with
  | none =>
      cases hl' : l'.exponent with
      | none =>
          rw [hl, hl'] at he
          exact ⟨rfl, he⟩
      | some e' =>
          rw [hl, hl'] at he
          obtain rfl : rest = e'.text ++ rest' := he
          exact absurd hrest (hletter e' rest')
  | some e =>
      cases hl' : l'.exponent with
      | none =>
          rw [hl, hl'] at he
          obtain rfl : e.text ++ rest = rest' := he
          exact absurd hrest' (hletter e rest)
      | some e' =>
          rw [hl, hl'] at he
          obtain ⟨rfl, rfl⟩ := Exponent.unique (hwell e hl) (hwell' e' hl') hrest hrest' he
          exact ⟨rfl, rfl⟩

/-- A mantissa does not begin with a sign. -/
theorem sign_unique {negative negative' : Bool} {m m' : Mantissa} (h : m.WellFormed)
    (h' : m'.WellFormed)
    (he : (if negative then ['-'] else []) ++ (m.text ++ rest) =
      (if negative' then ['-'] else []) ++ (m'.text ++ rest')) :
    negative = negative' ∧ m.text ++ rest = m'.text ++ rest' := by
  have hne : ∀ {m : Mantissa}, m.WellFormed → ∀ cs cs', '-' :: cs ≠ m.text ++ cs' := by
    intro m h cs cs' heq
    obtain ⟨c, ds, htext, hdigit⟩ := h.exists_text_eq
    rw [htext] at heq
    obtain ⟨rfl, _⟩ := List.cons.inj heq
    exact absurd hdigit (by decide)
  cases negative with
  | false =>
      cases negative' with
      | false => exact ⟨rfl, he⟩
      | true => exact absurd he.symm (hne h _ _)
  | true =>
      cases negative' with
      | false => exact absurd he (hne h' _ _)
      | true => exact ⟨rfl, (List.cons.inj he).2⟩

/-- **A number ends in one place, and is read in one way.** -/
theorem unique (h : l.WellFormed) (h' : l'.WellFormed) (hrest : EndsNumber rest)
    (hrest' : EndsNumber rest') (he : l.text ++ rest = l'.text ++ rest') :
    l = l' ∧ rest = rest' := by
  have hread := Mantissa.read?_text h.mantissa (l.head?_exponentText hrest)
  have hread' := Mantissa.read?_text h'.mantissa (l'.head?_exponentText hrest')
  obtain ⟨hsign, hmore⟩ := sign_unique h.mantissa h'.mantissa
    (by simpa only [text, List.append_assoc] using he)
  rw [← hmore, hread] at hread'
  obtain ⟨hmantissa, hexponents⟩ := Prod.mk.inj (Option.some.inj hread')
  obtain ⟨hexponent, rfl⟩ := exponent_unique h h' hrest hrest' hexponents
  obtain ⟨negative, mantissa, exponent⟩ := l
  obtain ⟨negative', mantissa', exponent'⟩ := l'
  subst hsign hmantissa hexponent
  exact ⟨rfl, rfl⟩

end Literal

/-! ### Strings -/

/-- The character that a backslash and a letter stand for. -/
def letterEscape? : Char → Option Char
  | '"' => some '"'
  | '\\' => some '\\'
  | '/' => some '/'
  | 'b' => some '\x08'
  | 'f' => some '\x0c'
  | 'n' => some '\n'
  | 'r' => some '\r'
  | 't' => some '\t'
  | _ => none

/-- The value of a hexadecimal digit. -/
def hexDigitValue? (c : Char) : Option Nat :=
  if c.isDigit then some (c.toNat - '0'.toNat)
  else if 'a' ≤ c ∧ c ≤ 'f' then some (c.toNat - 'a'.toNat + 10)
  else if 'A' ≤ c ∧ c ≤ 'F' then some (c.toNat - 'A'.toNat + 10)
  else none

/-- Four hexadecimal digits, and the number that they write. -/
inductive HexUnit : List Char → Nat → Prop
  | digits {a b c d : Char} {p q r s : Nat} : hexDigitValue? a = some p →
      hexDigitValue? b = some q → hexDigitValue? c = some r → hexDigitValue? d = some s →
      HexUnit [a, b, c, d] (0x1000 * p + 0x100 * q + 0x10 * r + s)

/-- **A character between quotes**: as it is, or behind a backslash by a letter, by its code point,
or by the two halves of a surrogate pair. -/
inductive CharText : List Char → Char → Prop
  | plain {c : Char} : 0x20 ≤ c.toNat → c ≠ '"' → c ≠ '\\' → CharText [c] c
  | letter {l c : Char} : letterEscape? l = some c → CharText ['\\', l] c
  | unit {ds : List Char} {n : Nat} : HexUnit ds n → n < 0xD800 ∨ 0xDFFF < n →
      CharText ('\\' :: 'u' :: ds) (Char.ofNat n)
  | pair {ds ds' : List Char} {high low : Nat} : HexUnit ds high → HexUnit ds' low →
      0xD800 ≤ high → high ≤ 0xDBFF → 0xDC00 ≤ low → low ≤ 0xDFFF →
      CharText ('\\' :: 'u' :: (ds ++ '\\' :: 'u' :: ds'))
        (Char.ofNat (0x10000 + 0x400 * (high - 0xD800) + (low - 0xDC00)))

/-- **A text between quotes.** -/
inductive StringText : List Char → List Char → Prop
  | nil : StringText [] []
  | cons {part raw : List Char} {c : Char} {cs : List Char} : CharText part c →
      StringText raw cs → StringText (part ++ raw) (c :: cs)

/-- Four digits write one number. -/
theorem HexUnit.unique {ds ds' rest rest' : List Char} {n n' : Nat} (h : HexUnit ds n)
    (h' : HexUnit ds' n') (he : ds ++ rest = ds' ++ rest') :
    ds = ds' ∧ n = n' ∧ rest = rest' := by
  cases h with
  | digits ha hb hc hd =>
      cases h' with
      | digits ha' hb' hc' hd' =>
          simp only [List.cons_append, List.nil_append, List.cons.injEq] at he
          obtain ⟨rfl, rfl, rfl, rfl, rfl⟩ := he
          rw [ha] at ha'
          rw [hb] at hb'
          rw [hc] at hc'
          rw [hd] at hd'
          cases ha'
          cases hb'
          cases hc'
          cases hd'
          exact ⟨rfl, rfl, rfl⟩

/-- The letter before four digits stands for no character. -/
theorem letterEscape?_u : letterEscape? 'u' = none := rfl

namespace CharText

variable {part part' rest rest' : List Char} {c c' : Char}

/-- **A character between quotes is read in one way.** -/
theorem unique (h : CharText part c) (h' : CharText part' c') (he : part ++ rest = part' ++ rest') :
    part = part' ∧ c = c' ∧ rest = rest' := by
  cases h with
  | plain _ _ hbackslash =>
      cases h' with
      | plain =>
          obtain ⟨rfl, rfl⟩ := List.cons.inj he
          exact ⟨rfl, rfl, rfl⟩
      | letter | unit | pair => exact absurd (List.cons.inj he).1 hbackslash
  | letter hl =>
      cases h' with
      | plain _ _ hbackslash => exact absurd (List.cons.inj he).1.symm hbackslash
      | letter hl' =>
          obtain ⟨rfl, rfl⟩ := List.cons.inj (List.cons.inj he).2
          exact ⟨rfl, Option.some.inj (hl.symm.trans hl'), rfl⟩
      | unit | pair =>
          obtain ⟨rfl, _⟩ := List.cons.inj (List.cons.inj he).2
          cases letterEscape?_u.symm.trans hl
  | unit hds hn =>
      cases h' with
      | plain _ _ hbackslash => exact absurd (List.cons.inj he).1.symm hbackslash
      | letter hl' =>
          obtain ⟨rfl, _⟩ := List.cons.inj (List.cons.inj he).2
          cases letterEscape?_u.symm.trans hl'
      | unit hds' =>
          have hdigits := (List.cons.inj (List.cons.inj he).2).2
          obtain ⟨rfl, rfl, rfl⟩ := hds.unique hds' hdigits
          exact ⟨rfl, rfl, rfl⟩
      | pair hhigh' _ hle hge =>
          -- the first half of a pair is no character
          simp only [List.cons_append, List.append_assoc] at he
          have hdigits := (List.cons.inj (List.cons.inj he).2).2
          obtain ⟨_, rfl, _⟩ := hds.unique hhigh' hdigits
          omega
  | pair hhigh hlow hle hge =>
      cases h' with
      | plain _ _ hbackslash => exact absurd (List.cons.inj he).1.symm hbackslash
      | letter hl' =>
          obtain ⟨rfl, _⟩ := List.cons.inj (List.cons.inj he).2
          cases letterEscape?_u.symm.trans hl'
      | unit hds' hn' =>
          simp only [List.cons_append, List.append_assoc] at he
          have hdigits := (List.cons.inj (List.cons.inj he).2).2
          obtain ⟨_, rfl, _⟩ := hhigh.unique hds' hdigits
          omega
      | pair hhigh' hlow' =>
          simp only [List.cons_append, List.append_assoc] at he
          have hdigits := (List.cons.inj (List.cons.inj he).2).2
          obtain ⟨rfl, rfl, hmore⟩ := hhigh.unique hhigh' hdigits
          have hdigits' := (List.cons.inj (List.cons.inj hmore).2).2
          obtain ⟨rfl, rfl, rfl⟩ := hlow.unique hlow' hdigits'
          exact ⟨rfl, rfl, rfl⟩

/-- A character between quotes does not begin with a quote. -/
theorem quote_ne (h : CharText part c) (cs : List Char) : '"' :: cs ≠ part ++ rest := by
  intro he
  cases h with
  | plain _ hquote _ => exact hquote (List.cons.inj he).1.symm
  | letter | unit | pair => exact absurd (List.cons.inj he).1 (by decide)

end CharText

/-- **A text between quotes ends in one place, and is read in one way.** -/
theorem StringText.unique {raw raw' cs cs' rest rest' : List Char} (h : StringText raw cs)
    (h' : StringText raw' cs') (he : raw ++ '"' :: rest = raw' ++ '"' :: rest') :
    raw = raw' ∧ cs = cs' ∧ rest = rest' := by
  induction h generalizing raw' cs' with
  | nil =>
      cases h' with
      | nil => exact ⟨rfl, rfl, (List.cons.inj he).2⟩
      | cons hc _ =>
          rw [List.append_assoc] at he
          exact absurd he (hc.quote_ne _)
  | cons hc _ ih =>
      cases h' with
      | nil =>
          rw [List.append_assoc] at he
          exact absurd he.symm (hc.quote_ne _)
      | cons hc' hcs' =>
          rw [List.append_assoc, List.append_assoc] at he
          obtain ⟨rfl, rfl, hmore⟩ := hc.unique hc' he
          obtain ⟨rfl, rfl, rfl⟩ := ih hcs' hmore
          exact ⟨rfl, rfl, rfl⟩

/-! ### Values -/

/-- **The values.**  An object keeps its members in order. -/
inductive Value where
  | null
  | boolean (b : Bool)
  | number (l : Literal)
  | string (cs : List Char)
  | list (items : List Value)
  | object (members : List (List Char × Value))

/-- What the rules are about: a value, or what comes between the brackets of a list or an object
with something in it. -/
inductive Part where
  | value (v : Value)
  | items (vs : List Value)
  | members (ms : List (List Char × Value))

/-- The blanks of JSON. -/
def isBlankChar (c : Char) : Bool := c = ' ' || c = '\n' || c = '\t' || c = '\r'

/-- The text without the blanks at its front. -/
def skipBlanks (cs : List Char) : List Char := cs.dropWhile isBlankChar

/-- **The key of a member**, and the text after the colon. -/
inductive ReadsKey : List Char → List Char → List Char → Prop
  | key {raw key cs afterKey colon : List Char} : skipBlanks cs = '"' :: (raw ++ '"' :: afterKey) →
      StringText raw key → skipBlanks afterKey = ':' :: colon → ReadsKey key cs colon

/-- **The rules.**  What is at the head of a text, and the rest of the text after it. -/
inductive Reads : Part → List Char → List Char → Prop
  | null {rest : List Char} : Reads (.value .null) ('n' :: 'u' :: 'l' :: 'l' :: rest) rest
  | boolTrue {rest : List Char} :
      Reads (.value (.boolean true)) ('t' :: 'r' :: 'u' :: 'e' :: rest) rest
  | boolFalse {rest : List Char} :
      Reads (.value (.boolean false)) ('f' :: 'a' :: 'l' :: 's' :: 'e' :: rest) rest
  | number {l : Literal} {rest : List Char} : l.WellFormed → EndsNumber rest →
      Reads (.value (.number l)) (l.text ++ rest) rest
  | string {raw cs rest : List Char} : StringText raw cs →
      Reads (.value (.string cs)) ('"' :: (raw ++ '"' :: rest)) rest
  | emptyList {cs rest : List Char} : skipBlanks cs = ']' :: rest →
      Reads (.value (.list [])) ('[' :: cs) rest
  | list {vs : List Value} {cs rest : List Char} : Reads (.items vs) cs rest →
      Reads (.value (.list vs)) ('[' :: cs) rest
  | emptyObject {cs rest : List Char} : skipBlanks cs = '\x7d' :: rest →
      Reads (.value (.object [])) ('\x7b' :: cs) rest
  | object {ms : List (List Char × Value)} {cs rest : List Char} : Reads (.members ms) cs rest →
      Reads (.value (.object ms)) ('\x7b' :: cs) rest
  | lastItem {v : Value} {cs after rest : List Char} : Reads (.value v) (skipBlanks cs) after →
      skipBlanks after = ']' :: rest → Reads (.items [v]) cs rest
  | item {v : Value} {vs : List Value} {cs after more rest : List Char} :
      Reads (.value v) (skipBlanks cs) after → skipBlanks after = ',' :: more →
      Reads (.items vs) more rest → Reads (.items (v :: vs)) cs rest
  | lastMember {key : List Char} {v : Value} {cs colon after rest : List Char} :
      ReadsKey key cs colon → Reads (.value v) (skipBlanks colon) after →
      skipBlanks after = '\x7d' :: rest → Reads (.members [(key, v)]) cs rest
  | member {key : List Char} {v : Value} {ms : List (List Char × Value)}
      {cs colon after more rest : List Char} :
      ReadsKey key cs colon → Reads (.value v) (skipBlanks colon) after →
      skipBlanks after = ',' :: more → Reads (.members ms) more rest →
      Reads (.members ((key, v) :: ms)) cs rest

/-- **A whole text**, and its value. -/
def IsJson (cs : List Char) (v : Value) : Prop :=
  ∃ rest, Reads (.value v) (skipBlanks cs) rest ∧ skipBlanks rest = []

/-! ### One value at most -/

/-- The kinds of value, which their first characters tell apart. -/
inductive Kind where
  | null
  | boolean
  | number
  | string
  | list
  | object
deriving DecidableEq, Repr

def Value.kind : Value → Kind
  | .null => .null
  | .boolean _ => .boolean
  | .number _ => .number
  | .string _ => .string
  | .list _ => .list
  | .object _ => .object

/-- Whether a value has nothing inside. -/
def Value.isScalar : Value → Bool
  | .list _ => false
  | .object _ => false
  | _ => true

/-- The kind of the values that begin with a character. -/
def kindOf? (c : Char) : Option Kind :=
  if c.isDigit || c = '-' then some .number
  else if c = 'n' then some .null
  else if c = 't' || c = 'f' then some .boolean
  else if c = '"' then some .string
  else if c = '[' then some .list
  else if c = '\x7b' then some .object
  else none

theorem kindOf?_of_blank {c : Char} (h : isBlankChar c = true) : kindOf? c = none := by
  have hc : ((c = ' ' ∨ c = '\n') ∨ c = '\t') ∨ c = '\r' := by
    simpa [isBlankChar] using h
  rcases hc with ((rfl | rfl) | rfl) | rfl <;> rfl

theorem Literal.WellFormed.exists_text_eq {l : Literal} (h : l.WellFormed) :
    ∃ c cs, l.text = c :: cs ∧ kindOf? c = some .number := by
  obtain ⟨c, cs, htext, hdigit⟩ := h.mantissa.exists_text_eq
  unfold Literal.text
  cases l.negative with
  | true => exact ⟨'-', _, rfl, by decide⟩
  | false => exact ⟨c, cs ++ l.exponentText, by rw [htext]; rfl, by simp [kindOf?, hdigit]⟩

namespace Reads

variable {cs rest : List Char}

/-- **The first character of a value tells its kind.** -/
theorem kindOf?_eq {v : Value} (h : Reads (.value v) cs rest) :
    ∃ c cs', cs = c :: cs' ∧ kindOf? c = some v.kind := by
  cases h with
  | null => exact ⟨'n', _, rfl, rfl⟩
  | boolTrue => exact ⟨'t', _, rfl, rfl⟩
  | boolFalse => exact ⟨'f', _, rfl, rfl⟩
  | number hl _ =>
      obtain ⟨c, cs', htext, hkind⟩ := hl.exists_text_eq
      exact ⟨c, cs' ++ rest, by rw [htext]; rfl, hkind⟩
  | string => exact ⟨'"', _, rfl, rfl⟩
  | emptyList | list => exact ⟨'[', _, rfl, rfl⟩
  | emptyObject | object => exact ⟨'\x7b', _, rfl, rfl⟩

/-- A value does not begin with a blank. -/
theorem skipBlanks_eq {v : Value} (h : Reads (.value v) cs rest) : skipBlanks cs = cs := by
  obtain ⟨c, cs', rfl, hkind⟩ := h.kindOf?_eq
  have hblank : isBlankChar c = false := by
    by_contra hc
    rw [kindOf?_of_blank (Bool.eq_true_of_not_eq_false hc)] at hkind
    cases hkind
  simp [skipBlanks, hblank]

theorem kind_unique {v v' : Value} {rest' : List Char} (h : Reads (.value v) cs rest)
    (h' : Reads (.value v') cs rest') : v.kind = v'.kind := by
  obtain ⟨c, _, hcs, hkind⟩ := h.kindOf?_eq
  obtain ⟨c', _, hcs', hkind'⟩ := h'.kindOf?_eq
  obtain ⟨rfl, _⟩ := List.cons.inj (hcs.symm.trans hcs')
  exact Option.some.inj (hkind.symm.trans hkind')

/-! Each kind of part has rules of its own. -/

theorem null_iff : Reads (.value .null) cs rest ↔ cs = ['n', 'u', 'l', 'l'] ++ rest := by
  constructor
  · intro h
    cases h with
    | null => rfl
  · rintro rfl
    exact .null

theorem boolean_iff {b : Bool} :
    Reads (.value (.boolean b)) cs rest ↔
      cs = (if b then ['t', 'r', 'u', 'e'] else ['f', 'a', 'l', 's', 'e']) ++ rest := by
  constructor
  · intro h
    cases h with
    | boolTrue | boolFalse => rfl
  · rintro rfl
    cases b with
    | true => exact .boolTrue
    | false => exact .boolFalse

theorem number_iff {l : Literal} :
    Reads (.value (.number l)) cs rest ↔ l.WellFormed ∧ EndsNumber rest ∧ cs = l.text ++ rest := by
  constructor
  · intro h
    cases h with
    | number hl hrest => exact ⟨hl, hrest, rfl⟩
  · rintro ⟨hl, hrest, rfl⟩
    exact .number hl hrest

theorem string_iff {text : List Char} :
    Reads (.value (.string text)) cs rest ↔
      ∃ raw, StringText raw text ∧ cs = '"' :: (raw ++ '"' :: rest) := by
  constructor
  · intro h
    cases h with
    | string hraw => exact ⟨_, hraw, rfl⟩
  · rintro ⟨raw, hraw, rfl⟩
    exact .string hraw

theorem list_iff {vs : List Value} :
    Reads (.value (.list vs)) cs rest ↔
      ∃ inner, cs = '[' :: inner ∧
        (vs = [] ∧ skipBlanks inner = ']' :: rest ∨ Reads (.items vs) inner rest) := by
  constructor
  · intro h
    cases h with
    | emptyList hclose => exact ⟨_, rfl, .inl ⟨rfl, hclose⟩⟩
    | list hitems => exact ⟨_, rfl, .inr hitems⟩
  · rintro ⟨inner, rfl, ⟨rfl, hclose⟩ | hitems⟩
    · exact .emptyList hclose
    · exact .list hitems

theorem object_iff {ms : List (List Char × Value)} :
    Reads (.value (.object ms)) cs rest ↔
      ∃ inner, cs = '\x7b' :: inner ∧
        (ms = [] ∧ skipBlanks inner = '\x7d' :: rest ∨ Reads (.members ms) inner rest) := by
  constructor
  · intro h
    cases h with
    | emptyObject hclose => exact ⟨_, rfl, .inl ⟨rfl, hclose⟩⟩
    | object hmembers => exact ⟨_, rfl, .inr hmembers⟩
  · rintro ⟨inner, rfl, ⟨rfl, hclose⟩ | hmembers⟩
    · exact .emptyObject hclose
    · exact .object hmembers

/-- What follows a value in a list: the bracket, or a comma and the other values. -/
theorem items_iff {vs : List Value} :
    Reads (.items vs) cs rest ↔
      ∃ v after vs', vs = v :: vs' ∧ Reads (.value v) (skipBlanks cs) after ∧
        (vs' = [] ∧ skipBlanks after = ']' :: rest ∨
          ∃ more, skipBlanks after = ',' :: more ∧ Reads (.items vs') more rest) := by
  constructor
  · intro h
    cases h with
    | lastItem hv hclose => exact ⟨_, _, [], rfl, hv, .inl ⟨rfl, hclose⟩⟩
    | item hv hcomma hitems => exact ⟨_, _, _, rfl, hv, .inr ⟨_, hcomma, hitems⟩⟩
  · rintro ⟨v, after, vs', rfl, hv, ⟨rfl, hclose⟩ | ⟨more, hcomma, hitems⟩⟩
    · exact .lastItem hv hclose
    · exact .item hv hcomma hitems

/-- What follows the value of a member: the bracket, or a comma and the other members. -/
theorem members_iff {ms : List (List Char × Value)} :
    Reads (.members ms) cs rest ↔
      ∃ key v colon after ms', ms = (key, v) :: ms' ∧ ReadsKey key cs colon ∧
        Reads (.value v) (skipBlanks colon) after ∧
        (ms' = [] ∧ skipBlanks after = '\x7d' :: rest ∨
          ∃ more, skipBlanks after = ',' :: more ∧ Reads (.members ms') more rest) := by
  constructor
  · intro h
    cases h with
    | lastMember hkey hv hclose => exact ⟨_, _, _, _, [], rfl, hkey, hv, .inl ⟨rfl, hclose⟩⟩
    | member hkey hv hcomma hmembers =>
        exact ⟨_, _, _, _, _, rfl, hkey, hv, .inr ⟨_, hcomma, hmembers⟩⟩
  · rintro ⟨key, v, colon, after, ms', rfl, hkey, hv, ⟨rfl, hclose⟩ | ⟨more, hcomma, hmembers⟩⟩
    · exact .lastMember hkey hv hclose
    · exact .member hkey hv hcomma hmembers

end Reads

theorem ReadsKey.unique {key key' cs colon colon' : List Char} (h : ReadsKey key cs colon)
    (h' : ReadsKey key' cs colon') : key = key' ∧ colon = colon' := by
  cases h with
  | key hquote hraw hcolon =>
      cases h' with
      | key hquote' hraw' hcolon' =>
          obtain ⟨_, rfl, rfl⟩ :=
            hraw.unique hraw' (List.cons.inj (hquote.symm.trans hquote')).2
          exact ⟨rfl, (List.cons.inj (hcolon.symm.trans hcolon')).2⟩

/-- Two parts of the same sort. -/
inductive Part.Alike : Part → Part → Prop
  | value (v v' : Value) : Alike (.value v) (.value v')
  | items (vs vs' : List Value) : Alike (.items vs) (.items vs')
  | members (ms ms' : List (List Char × Value)) : Alike (.members ms) (.members ms')

namespace Reads

variable {cs rest rest' : List Char}

/-- **The part `p` is all that can be read** of its sort, and the rest is always the same. -/
def OnlyReading (p : Part) (cs rest : List Char) : Prop :=
  ∀ p' rest', p.Alike p' → Reads p' cs rest' → p = p' ∧ rest = rest'

theorem OnlyReading.value {v : Value} (h : OnlyReading (.value v) cs rest) (v' : Value)
    (rest' : List Char) (h' : Reads (.value v') cs rest') : v = v' ∧ rest = rest' := by
  obtain ⟨he, hrest⟩ := h _ _ (.value v v') h'
  exact ⟨Part.value.inj he, hrest⟩

theorem OnlyReading.items {vs : List Value} (h : OnlyReading (.items vs) cs rest) (vs' : List Value)
    (rest' : List Char) (h' : Reads (.items vs') cs rest') : vs = vs' ∧ rest = rest' := by
  obtain ⟨he, hrest⟩ := h _ _ (.items vs vs') h'
  exact ⟨Part.items.inj he, hrest⟩

theorem OnlyReading.members {ms : List (List Char × Value)} (h : OnlyReading (.members ms) cs rest)
    (ms' : List (List Char × Value)) (rest' : List Char) (h' : Reads (.members ms') cs rest') :
    ms = ms' ∧ rest = rest' := by
  obtain ⟨he, hrest⟩ := h _ _ (.members ms ms') h'
  exact ⟨Part.members.inj he, hrest⟩

/-- No value begins with the bracket that closes a list. -/
theorem close_ne_items {vs : List Value} (h : Reads (.items vs) cs rest) (after : List Char) :
    skipBlanks cs ≠ ']' :: after := by
  intro hcs
  obtain ⟨v, _, _, _, hv, _⟩ := items_iff.1 h
  obtain ⟨c, _, hc, hkind⟩ := hv.kindOf?_eq
  obtain ⟨rfl, _⟩ := List.cons.inj (hcs.symm.trans hc)
  exact absurd hkind (by simp [kindOf?])

/-- No key begins with the bracket that closes an object. -/
theorem close_ne_members {ms : List (List Char × Value)} (h : Reads (.members ms) cs rest)
    (after : List Char) : skipBlanks cs ≠ '\x7d' :: after := by
  intro hcs
  obtain ⟨_, _, _, _, _, _, hkey, _, _⟩ := members_iff.1 h
  cases hkey with
  | key hquote _ _ => exact absurd (List.cons.inj (hcs.symm.trans hquote)).1 (by decide)

theorem boolean_unique {b b' : Bool} (h : Reads (.value (.boolean b)) cs rest)
    (h' : Reads (.value (.boolean b')) cs rest') : b = b' ∧ rest = rest' := by
  have he := (boolean_iff.1 h).symm.trans (boolean_iff.1 h')
  cases b with
  | true =>
      cases b' with
      | true => exact ⟨rfl, List.append_cancel_left he⟩
      | false => exact absurd (List.cons.inj he).1 (by decide)
  | false =>
      cases b' with
      | true => exact absurd (List.cons.inj he).1 (by decide)
      | false => exact ⟨rfl, List.append_cancel_left he⟩

/-- A value with nothing inside is read in one way. -/
theorem scalar_only {v : Value} (hv : v.isScalar = true) (h : Reads (.value v) cs rest) :
    OnlyReading (.value v) cs rest := by
  rintro _ rest' ⟨_, v'⟩ h'
  have hkind := h.kind_unique h'
  cases v with
  | null =>
      cases v' with
      | null => exact ⟨rfl, List.append_cancel_left ((null_iff.1 h).symm.trans (null_iff.1 h'))⟩
      | _ => nomatch hkind
  | boolean b =>
      cases v' with
      | boolean b' =>
          obtain ⟨rfl, rfl⟩ := boolean_unique h h'
          exact ⟨rfl, rfl⟩
      | _ => nomatch hkind
  | number l =>
      cases v' with
      | number l' =>
          obtain ⟨hl, hrest, rfl⟩ := number_iff.1 h
          obtain ⟨hl', hrest', he⟩ := number_iff.1 h'
          obtain ⟨rfl, rfl⟩ := Literal.unique hl hl' hrest hrest' he
          exact ⟨rfl, rfl⟩
      | _ => nomatch hkind
  | string text =>
      cases v' with
      | string text' =>
          obtain ⟨raw, hraw, rfl⟩ := string_iff.1 h
          obtain ⟨raw', hraw', he⟩ := string_iff.1 h'
          obtain ⟨_, rfl, rfl⟩ := hraw.unique hraw' (List.cons.inj he).2
          exact ⟨rfl, rfl⟩
      | _ => nomatch hkind
  | list | object => cases hv

/-! What is inside a container is a list of items or of members, and `P` is how it is read. -/

section Containers

variable {α : Type} {P : List α → List Char → List Char → Prop} {close : Char} {xs xs' : List α}

/-- A container is closed at once or has something inside, but not both. -/
theorem inside_unique {inner : List Char}
    (hopen : ∀ xs rest after, P xs inner rest → skipBlanks inner ≠ close :: after)
    (h : xs = [] ∧ skipBlanks inner = close :: rest ∨
      P xs inner rest ∧ ∀ xs' rest', P xs' inner rest' → xs = xs' ∧ rest = rest')
    (h' : xs' = [] ∧ skipBlanks inner = close :: rest' ∨ P xs' inner rest') :
    xs = xs' ∧ rest = rest' := by
  rcases h with ⟨rfl, hclose⟩ | ⟨hinside, hunique⟩
  · rcases h' with ⟨rfl, hclose'⟩ | hinside'
    · exact ⟨rfl, (List.cons.inj (hclose.symm.trans hclose')).2⟩
    · exact absurd hclose (hopen _ _ _ hinside')
  · rcases h' with ⟨_, hclose⟩ | hinside'
    · exact absurd hclose (hopen _ _ _ hinside)
    · exact hunique _ _ hinside'

/-- After a value a container is closed or goes on, but not both. -/
theorem more_unique {after : List Char} (hcomma : close ≠ ',')
    (h : xs = [] ∧ skipBlanks after = close :: rest ∨ ∃ more, skipBlanks after = ',' :: more ∧
      ∀ xs' rest', P xs' more rest' → xs = xs' ∧ rest = rest')
    (h' : xs' = [] ∧ skipBlanks after = close :: rest' ∨
      ∃ more, skipBlanks after = ',' :: more ∧ P xs' more rest') :
    xs = xs' ∧ rest = rest' := by
  rcases h with ⟨rfl, hclose⟩ | ⟨more, hmore, hunique⟩
  · rcases h' with ⟨rfl, hclose'⟩ | ⟨_, hmore', _⟩
    · exact ⟨rfl, (List.cons.inj (hclose.symm.trans hclose')).2⟩
    · exact absurd (List.cons.inj (hclose.symm.trans hmore')).1 hcomma
  · rcases h' with ⟨_, hclose⟩ | ⟨more', hmore', hrest⟩
    · exact absurd (List.cons.inj (hmore.symm.trans hclose)).1.symm hcomma
    · obtain ⟨_, rfl⟩ := List.cons.inj (hmore.symm.trans hmore')
      exact hunique _ _ hrest

end Containers

/-- A list is read in one way if its items are. -/
theorem list_only {vs : List Value} {inner : List Char}
    (h : vs = [] ∧ skipBlanks inner = ']' :: rest ∨
      Reads (.items vs) inner rest ∧ OnlyReading (.items vs) inner rest) :
    OnlyReading (.value (.list vs)) ('[' :: inner) rest := by
  rintro _ rest' ⟨_, v'⟩ h'
  have hkind := (list_iff.2 ⟨inner, rfl, h.imp_right And.left⟩).kind_unique h'
  cases v' with
  | list vs' =>
      obtain ⟨_, he, hinner⟩ := list_iff.1 h'
      obtain ⟨_, rfl⟩ := List.cons.inj he
      obtain ⟨rfl, rfl⟩ := inside_unique (fun _ _ after hitems => hitems.close_ne_items after)
        (h.imp_right (And.imp_right OnlyReading.items)) hinner
      exact ⟨rfl, rfl⟩
  | _ => nomatch hkind

/-- An object is read in one way if its members are. -/
theorem object_only {ms : List (List Char × Value)} {inner : List Char}
    (h : ms = [] ∧ skipBlanks inner = '\x7d' :: rest ∨
      Reads (.members ms) inner rest ∧ OnlyReading (.members ms) inner rest) :
    OnlyReading (.value (.object ms)) ('\x7b' :: inner) rest := by
  rintro _ rest' ⟨_, v'⟩ h'
  have hkind := (object_iff.2 ⟨inner, rfl, h.imp_right And.left⟩).kind_unique h'
  cases v' with
  | object ms' =>
      obtain ⟨_, he, hinner⟩ := object_iff.1 h'
      obtain ⟨_, rfl⟩ := List.cons.inj he
      obtain ⟨rfl, rfl⟩ := inside_unique (fun _ _ after hms => hms.close_ne_members after)
        (h.imp_right (And.imp_right OnlyReading.members)) hinner
      exact ⟨rfl, rfl⟩
  | _ => nomatch hkind

/-- Items are read in one way if the first and the others are. -/
theorem items_only {v : Value} {vs : List Value} {after : List Char}
    (hv : OnlyReading (.value v) (skipBlanks cs) after)
    (h : vs = [] ∧ skipBlanks after = ']' :: rest ∨
      ∃ more, skipBlanks after = ',' :: more ∧ OnlyReading (.items vs) more rest) :
    OnlyReading (.items (v :: vs)) cs rest := by
  rintro _ rest' ⟨_⟩ h'
  obtain ⟨v', after', vs', rfl, hv', hmore⟩ := items_iff.1 h'
  obtain ⟨rfl, rfl⟩ := hv.value _ _ hv'
  obtain ⟨rfl, rfl⟩ := more_unique (by decide)
    (h.imp_right fun ⟨more, hcomma, hvs⟩ => ⟨more, hcomma, hvs.items⟩) hmore
  exact ⟨rfl, rfl⟩

/-- Members are read in one way if the value of the first and the others are. -/
theorem members_only {key : List Char} {v : Value} {ms : List (List Char × Value)}
    {colon after : List Char} (hkey : ReadsKey key cs colon)
    (hv : OnlyReading (.value v) (skipBlanks colon) after)
    (h : ms = [] ∧ skipBlanks after = '\x7d' :: rest ∨
      ∃ more, skipBlanks after = ',' :: more ∧ OnlyReading (.members ms) more rest) :
    OnlyReading (.members ((key, v) :: ms)) cs rest := by
  rintro _ rest' ⟨_⟩ h'
  obtain ⟨key', v', colon', after', ms', rfl, hkey', hv', hmore⟩ := members_iff.1 h'
  obtain ⟨rfl, rfl⟩ := hkey.unique hkey'
  obtain ⟨rfl, rfl⟩ := hv.value _ _ hv'
  obtain ⟨rfl, rfl⟩ := more_unique (by decide)
    (h.imp_right fun ⟨more, hcomma, hms⟩ => ⟨more, hcomma, hms.members⟩) hmore
  exact ⟨rfl, rfl⟩

/-- **A part of a text is read in one way**, and ends in one place. -/
theorem unique {p : Part} (h : Reads p cs rest) : OnlyReading p cs rest := by
  induction h with
  | null => exact scalar_only rfl .null
  | boolTrue => exact scalar_only rfl .boolTrue
  | boolFalse => exact scalar_only rfl .boolFalse
  | number hl hrest => exact scalar_only rfl (.number hl hrest)
  | string hraw => exact scalar_only rfl (.string hraw)
  | emptyList hclose => exact list_only (.inl ⟨rfl, hclose⟩)
  | list hitems ih => exact list_only (.inr ⟨hitems, ih⟩)
  | emptyObject hclose => exact object_only (.inl ⟨rfl, hclose⟩)
  | object hmembers ih => exact object_only (.inr ⟨hmembers, ih⟩)
  | lastItem _ hclose ih => exact items_only ih (.inl ⟨rfl, hclose⟩)
  | item _ hcomma _ ih ihs => exact items_only ih (.inr ⟨_, hcomma, ihs⟩)
  | lastMember hkey _ hclose ih => exact members_only hkey ih (.inl ⟨rfl, hclose⟩)
  | member hkey _ hcomma _ ih ihs => exact members_only hkey ih (.inr ⟨_, hcomma, ihs⟩)

end Reads

/-- **A text has one value at most.** -/
theorem IsJson.unique {cs : List Char} {v v' : Value} (h : IsJson cs v) (h' : IsJson cs v') :
    v = v' := by
  obtain ⟨_, hv, _⟩ := h
  obtain ⟨_, hv', _⟩ := h'
  exact (hv.unique.value _ _ hv').1

end StreamLexer.Json
