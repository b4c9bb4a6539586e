/-
**Values of a configuration in a text.**

Each member of a configuration has one JSON value, and wherever that value is written its reader
yields the member and leaves what follows.  A reader of members may accept other values, or refuse
them; but when it accepts one, it leaves what follows the value in the text, and so what a reader
that only passes over values would leave.

Main definitions:

* `StreamLexer.Config.memberValue` — **the value of a member** in a configuration;
* `StreamLexer.Config.Draft.learn` — a draft to which a member of a configuration is added.

Main results:

* `StreamLexer.Config.Draft.readMember_ofText` — **the value of a member is read as the member**;
* `StreamLexer.Config.Draft.readMember_rest` — **an accepted value is left behind as a whole**.
-/

import StreamLexer.Proofs.ConfigInput
import StreamLexer.Proofs.JsonSkipping

set_option relaxedAutoImplicit false
set_option autoImplicit false

namespace StreamLexer

namespace Json

/-! ### Strings that are wanted and strings that are passed over -/

theorem byteInString_of_expectInString {c : Char} {otherwise : ReadError} {s rest : Input}
    (h : expectInString c otherwise s = .ok ((), rest)) : byteInString s = .ok (byte c, rest) := by
  obtain ⟨b, t, hb, h⟩ := bind_eq_ok h
  split at h
  · next hc =>
      obtain ⟨_, rfl⟩ := Prod.mk.inj (Except.ok.inj h)
      rw [hb, hc]
  · cases h

/-- A character by its number is one escape, or two for the halves of a pair. -/
theorem exists_of_codePointEscape {s rest : Input} {c : Char}
    (h : codePointEscape s = .ok (c, rest)) :
    ∃ n mid, hexEscape s = .ok (n, mid) ∧
      (mid = rest ∨ ∃ t t' m, byteInString mid = .ok (byte '\\', t) ∧
        byteInString t = .ok (byte 'u', t') ∧ hexEscape t' = .ok (m, rest)) := by
  obtain ⟨n, mid, hhex, hpoint⟩ := bind_eq_ok h
  refine ⟨n, mid, hhex, ?_⟩
  split at hpoint
  · cases hpoint
  · split at hpoint
    · obtain ⟨_, t, hbackslash, hpair⟩ := bind_eq_ok hpoint
      obtain ⟨_, t', hletter, hlow⟩ := bind_eq_ok hpair
      obtain ⟨m, t'', hhex', hpure⟩ := bind_eq_ok hlow
      split at hpure
      · obtain ⟨_, rfl⟩ := Prod.mk.inj (Except.ok.inj hpure)
        exact .inr ⟨t, t', m, byteInString_of_expectInString hbackslash,
          byteInString_of_expectInString hletter, hhex'⟩
      · cases hpure
    · exact .inl (Prod.mk.inj (Except.ok.inj hpoint)).2

theorem escape_false_u {s t rest : Input} {n : Nat} (h : byteInString s = .ok (byte 'u', t))
    (hhex : hexEscape t = .ok (n, rest)) : escape false s = .ok ([], rest) := by
  have hletter : unescapeLetter? (byte 'u') = none := rfl
  rw [escape, bind_of_eq_ok h]
  simp only [hletter, if_true, Bool.false_eq_true, if_false]
  rw [bind_of_eq_ok hhex]
  rfl

/-- An escape that is wanted is one that is passed over, or two for the halves of a pair. -/
theorem escape_false_of_true {s rest : Input} {bytes : Bytes}
    (h : escape true s = .ok (bytes, rest)) :
    (∃ bytes', escape false s = .ok (bytes', rest)) ∨
      ∃ mid mid', escape false s = .ok ([], mid) ∧ byteInString mid = .ok (byte '\\', mid') ∧
        escape false mid' = .ok ([], rest) := by
  obtain ⟨b, t, hb, hescape⟩ := bind_eq_ok h
  cases hletter : unescapeLetter? b with
  | some c =>
      simp only [hletter] at hescape
      obtain ⟨_, rfl⟩ := Prod.mk.inj (Except.ok.inj hescape)
      refine .inl ⟨encodeUtf8 [c], ?_⟩
      rw [escape, bind_of_eq_ok hb]
      simp only [hletter]
      rfl
  | none =>
      simp only [hletter, if_true] at hescape
      split at hescape
      · next hu =>
          rw [hu] at hb
          obtain ⟨c, t', hpoint, hpure⟩ := bind_eq_ok hescape
          obtain ⟨_, rfl⟩ := Prod.mk.inj (Except.ok.inj hpure)
          obtain ⟨n, mid, hhex, rfl | ⟨_, _, _, hbackslash, hletter', hhex'⟩⟩ :=
            exists_of_codePointEscape hpoint
          · exact .inl ⟨[], escape_false_u hb hhex⟩
          · exact .inr ⟨_, _, escape_false_u hb hhex, hbackslash, escape_false_u hletter' hhex'⟩
      · cases hescape

theorem exists_stringBytesFrom_false {reversed bytes : Bytes} {s rest : Input}
    (h : stringBytesFrom true reversed s = .ok (bytes, rest)) (reversed' : Bytes) :
    ∃ bytes', stringBytesFrom false reversed' s = .ok (bytes', rest) := by
  -- what passing over gathers is of no use and differs from what is wanted, so it is general
  fun_induction stringBytesFrom true reversed s generalizing reversed' with
  | case1 => cases h
  | case2 reversed s t hb =>
      obtain ⟨_, rfl⟩ := Prod.mk.inj (Except.ok.inj h)
      exact ⟨_, stringBytesFrom_quote hb⟩
  | case3 => cases h
  | case4 reversed s t escaped t' hescape hb _ ih =>
      rcases escape_false_of_true hescape with ⟨_, hone⟩ | ⟨_, _, hfirst, hbackslash, hsecond⟩
      · rw [stringBytesFrom_escape hb hone]
        exact ih h _
      · rw [stringBytesFrom_escape hb hfirst, stringBytesFrom_escape hbackslash hsecond]
        exact ih h _
  | case5 => cases h
  | case6 reversed s b t hb hquote hbackslash hcontrol ih =>
      have hge : 0x20 ≤ b.toNat := Nat.not_lt.1 hcontrol
      rw [stringBytesFrom_plain hb hquote hbackslash hge]
      exact ih h _

/-- **A string that is wanted is one that is passed over.** -/
theorem skipString_of_readString {s rest : Input} {cs : List Char}
    (h : readString s = .ok (cs, rest)) : skipString s = .ok ((), rest) := by
  obtain ⟨bytes, t, hbytes, h⟩ := bind_eq_ok h
  obtain ⟨bytes', hbytes'⟩ := exists_stringBytesFrom_false hbytes []
  have hstring : stringBytes false s = .ok (bytes', t) := hbytes'
  cases htext : decodeUtf8? bytes with
  | none =>
      simp only [htext] at h
      cases h
  | some text =>
      simp only [htext] at h
      obtain ⟨_, rfl⟩ := Prod.mk.inj (Except.ok.inj h)
      rw [skipString, bind_of_eq_ok hstring]
      rfl

/-! ### Values that are passed over -/

/-- A reader that needs a byte has found one. -/
theorem exists_byte_of_bind {α : Type} {p : Reader (Option UInt8)} {f : Option UInt8 → Reader α}
    {s rest : Input} {a : α} (h : (p >>= f) s = .ok (a, rest))
    (hnone : ∀ t, f none t ≠ .ok (a, rest)) :
    ∃ b t, p s = .ok (some b, t) ∧ f (some b) t = .ok (a, rest) := by
  obtain ⟨o, t, ho, hf⟩ := bind_eq_ok h
  cases o with
  | none => exact absurd hf (hnone t)
  | some b => exact ⟨b, t, ho, hf⟩

theorem skipFrom_after_nil (s : Input) : skipFrom .after [] s = .ok ((), s) := by
  rw [skipFrom]

theorem Input.skipSpace_skipSpace (s : Input) : s.skipSpace.skipSpace = s.skipSpace := by
  simp only [skipSpace, List.dropWhile_idempotent]

/-- A byte that is taken off can be looked at first. -/
theorem peekSolid_of_nextSolid {s rest : Input} {b : UInt8} (h : nextSolid s = .ok (some b, rest)) :
    peekSolid s = .ok (some b, s.skipSpace) := by
  change nextByte s.skipSpace = _ at h
  change peekByte s.skipSpace = _
  unfold nextByte at h
  unfold peekByte
  split at h
  · unfold Input.beyond at h
    split at h <;> cases h
  · next b' t ht =>
      obtain ⟨hb, _⟩ := Prod.mk.inj (Except.ok.inj h)
      obtain rfl : b' = b := Option.some.inj hb
      rfl

/-- A value with nothing inside is a value. -/
theorem skipValue_of_skipScalar {s t rest : Input} {b : UInt8}
    (h : nextSolid s = .ok (some b, t)) (hopening : opening? b = none)
    (hscalar : skipScalar b t = .ok ((), rest)) : skipValue s = .ok ((), rest) := by
  rw [skipValue, skipFrom_value, bind_of_eq_ok h]
  simp only [hopening]
  rw [bind_of_eq_ok hscalar, skipFrom_after_nil]

end Json

namespace Config

open Json

/-! ### Accepted values are passed over -/

theorem mismatch_ne_ok {α : Type} {expected : String} {first : UInt8} {s rest : Input} {a : α} :
    (mismatch expected first : Reader α) s ≠ .ok (a, rest) := by
  intro h
  obtain ⟨found, t, _, hthrow⟩ := bind_eq_ok h
  cases hthrow

theorem eq_of_formatOfName {cs : List Char} {s rest : Input} {format : OutputFormat}
    (h : formatOfName cs s = .ok (format, rest)) : rest = s := by
  cases hname : OutputFormat.ofName? (String.ofList cs) with
  | none =>
      simp only [formatOfName, hname] at h
      cases h
  | some format' =>
      simp only [formatOfName, hname] at h
      exact (Prod.mk.inj (Except.ok.inj h)).2.symm

/-- The letters of a name that stands for a value. -/
theorem literal_of_word {α : Type} {letters : List Char} {a b : α} {s rest : Input}
    (h : (literal letters >>= fun _ => pure a : Reader α) s = .ok (b, rest)) :
    literal letters s = .ok ((), rest) := by
  obtain ⟨_, t, hliteral, hpure⟩ := bind_eq_ok h
  obtain ⟨_, rfl⟩ := Prod.mk.inj (Except.ok.inj hpure)
  exact hliteral

theorem skipValue_of_readFlag {s rest : Input} {flag : Bool} (h : readFlag s = .ok (flag, rest)) :
    skipValue s = .ok ((), rest) := by
  obtain ⟨b, t, hnext, hvalue⟩ := exists_byte_of_bind h nofun
  dsimp only at hvalue
  split at hvalue
  · next hb =>
      subst hb
      exact skipValue_of_skipScalar hnext rfl (literal_of_word hvalue)
  · split at hvalue
    · next hb =>
        subst hb
        exact skipValue_of_skipScalar hnext rfl (literal_of_word hvalue)
    · exact absurd hvalue mismatch_ne_ok

/-- An accepted null is one. -/
theorem exists_of_readNull {s rest : Input} (h : readNull s = .ok ((), rest)) :
    ∃ t, nextSolid s = .ok (some (byte 'n'), t) ∧
      skipScalar (byte 'n') t = .ok ((), rest) := by
  obtain ⟨b, t, hnext, hvalue⟩ := exists_byte_of_bind h nofun
  dsimp only at hvalue
  split at hvalue
  · next hb =>
      subst hb
      exact ⟨t, hnext, hvalue⟩
  · exact absurd hvalue mismatch_ne_ok

/-- What the long form of a format is made of, after its opening brace. -/
theorem exists_of_readFormatObject {s rest : Input} {format : OutputFormat}
    (h : readFormatObject s = .ok (format, rest)) :
    ∃ t₁ t₂ t₃ t₄, nextSolid s = .ok (some (byte '"'), t₁) ∧ skipString t₁ = .ok ((), t₂) ∧
      colon t₂ = .ok ((), t₃) ∧ readNull t₃ = .ok ((), t₄) ∧
      nextSolid t₄ = .ok (some (byte '\x7d'), rest) := by
  obtain ⟨b, t₁, hquote, hobject⟩ := exists_byte_of_bind h nofun
  dsimp only at hobject
  split at hobject
  · next hb =>
      obtain ⟨cs, t₂, hstring, hafterKey⟩ := bind_eq_ok hobject
      obtain ⟨format', t₂', hname, hmore⟩ := bind_eq_ok hafterKey
      obtain ⟨_, t₃, hcolon, hmember⟩ := bind_eq_ok hmore
      obtain ⟨_, t₄, hnull, hend⟩ := bind_eq_ok hmember
      obtain ⟨b', t₅, hclose, hpure⟩ := exists_byte_of_bind hend nofun
      dsimp only at hpure
      split at hpure
      · next hb' =>
          obtain ⟨_, rfl⟩ := Prod.mk.inj (Except.ok.inj hpure)
          rw [eq_of_formatOfName hname] at hcolon
          rw [hb] at hquote
          rw [hb'] at hclose
          exact ⟨t₁, t₂, t₃, t₄, hquote, skipString_of_readString hstring, hcolon, hnull, hclose⟩
      · cases hpure
  · split at hobject
    · cases hobject
    · cases hobject

/-- The long form of a format is an object with one member. -/
theorem skipFrom_opened_of_readFormatObject {s rest : Input} {format : OutputFormat}
    (h : readFormatObject s = .ok (format, rest)) :
    skipFrom (.opened .object) [] s = .ok ((), rest) := by
  obtain ⟨t₁, t₂, t₃, t₄, hquote, hstring, hcolon, hnull, hclose⟩ := exists_of_readFormatObject h
  obtain ⟨t, hletter, hscalar⟩ := exists_of_readNull hnull
  have hagain : nextSolid s.skipSpace = .ok (some (byte '"'), t₁) := by
    rw [nextSolid, Input.skipSpace_skipSpace]
    exact hquote
  have hkey : skipKey .object s.skipSpace = .ok ((), t₃) := by
    rw [skipKey, bind_of_eq_ok hagain]
    simp only [if_true]
    rw [bind_of_eq_ok hstring, hcolon]
  have hopening : opening? (byte 'n') = none := rfl
  rw [skipFrom_opened, bind_of_eq_ok (peekSolid_of_nextSolid hquote)]
  dsimp only
  rw [if_neg (by decide), bind_of_eq_ok hkey, skipFrom_value, bind_of_eq_ok hletter]
  simp only [hopening]
  rw [bind_of_eq_ok hscalar, skipFrom_after, bind_of_eq_ok hclose]
  exact skipFrom_after_nil rest

theorem skipValue_of_readFormat {s rest : Input} {format : OutputFormat}
    (h : readFormat s = .ok (format, rest)) : skipValue s = .ok ((), rest) := by
  obtain ⟨b, t, hnext, hvalue⟩ := exists_byte_of_bind h nofun
  dsimp only at hvalue
  split at hvalue
  · next hb =>
      subst hb
      obtain ⟨cs, t₁, hstring, hname⟩ := bind_eq_ok hvalue
      rw [eq_of_formatOfName hname]
      exact skipValue_of_skipScalar hnext rfl (skipString_of_readString hstring)
  · split at hvalue
    · next hb =>
        subst hb
        have hopening : opening? (byte '\x7b') = some .object := rfl
        rw [skipValue, skipFrom_value, bind_of_eq_ok hnext]
        simp only [hopening]
        exact skipFrom_opened_of_readFormatObject hvalue
    · cases hvalue

theorem eq_of_limitOfNumber {n : Number} {s rest : Input} {limit : Option UInt64}
    (h : limitOfNumber n s = .ok (limit, rest)) : rest = s := by
  cases n with
  | unsigned n => exact (Prod.mk.inj (Except.ok.inj h)).2.symm
  | negative n => cases h
  | float x => cases h

theorem eq_of_readNumber {l : Literal} (hl : l.WellFormed) {c : Char} {more after : List Char}
    (hafter : EndsNumber after) (htext : l.text = c :: more) {n : Number} {rest : Input}
    (h : readNumber (byte c) (.ofText (more ++ after)) = .ok (n, rest)) :
    rest = .ofText after := by
  rw [readNumber, bind_of_eq_ok (readNumeral_ofText hl hafter htext _)] at h
  cases hvalue : l.numeral.value with
  | ok n' =>
      simp only [hvalue] at h
      exact (Prod.mk.inj (Except.ok.inj h)).2.symm
  | error e =>
      simp only [hvalue] at h
      cases h

/-- An accepted limit is left behind as a whole: a null, or a number up to its end. -/
theorem readLimit_rest {cs after : List Char} {rest : Input} {limit : Option UInt64}
    (hscan : Scans .value (skipBlanks cs) after) (h : readLimit (.ofText cs) = .ok (limit, rest)) :
    rest = .ofText after := by
  have hskip := skipValue_ofText hscan
  obtain ⟨c, cs', kind, hcs, hkind⟩ := hscan.exists_head
  have hascii := toNat_lt_of_kindOf? hkind
  have hnext := nextSolid_ofText hcs hascii
  rw [readLimit, bind_of_eq_ok hnext] at h
  dsimp only at h
  split at h
  · next hb =>
      rw [hb] at hnext
      rw [skipValue_of_skipScalar hnext rfl (literal_of_word h)] at hskip
      exact (Prod.mk.inj (Except.ok.inj hskip)).2
  · split at h
    · next hfirst =>
        -- the form of the number says where it ends, whether or not a limit can hold it
        rw [hcs] at hscan
        obtain ⟨l, more, hl, hafter, htext, rfl⟩ :=
          hscan.exists_literal ((minus_or_digit_iff hascii).1 hfirst)
        obtain ⟨n, t, hnumber, hlimit⟩ := bind_eq_ok h
        rw [eq_of_limitOfNumber hlimit, eq_of_readNumber hl hafter htext hnumber]
    · exact absurd h mismatch_ne_ok

namespace Draft

/-- **An accepted value is left behind as a whole**, and its member is known from then on. -/
theorem readMember_rest {d d' : Draft} {m : Member} {cs after : List Char} {rest : Input}
    (hscan : Scans .value (skipBlanks cs) after)
    (h : d.readMember m (.ofText cs) = .ok (d', rest)) :
    rest = .ofText after ∧ ∀ m', d'.has m' = (d.has m' || decide (m' = m)) := by
  have hskip := skipValue_ofText hscan
  cases m with
  | format =>
      obtain ⟨format, t, hformat, hpure⟩ := bind_eq_ok h
      obtain ⟨rfl, rfl⟩ := Prod.mk.inj (Except.ok.inj hpure)
      rw [skipValue_of_readFormat hformat] at hskip
      refine ⟨(Prod.mk.inj (Except.ok.inj hskip)).2, ?_⟩
      intro m'
      cases m' <;> simp [has]
  | emitEndOfInput =>
      obtain ⟨flag, t, hflag, hpure⟩ := bind_eq_ok h
      obtain ⟨rfl, rfl⟩ := Prod.mk.inj (Except.ok.inj hpure)
      rw [skipValue_of_readFlag hflag] at hskip
      refine ⟨(Prod.mk.inj (Except.ok.inj hskip)).2, ?_⟩
      intro m'
      cases m' <;> simp [has]
  | maxTokens =>
      obtain ⟨limit, t, hlimit, hpure⟩ := bind_eq_ok h
      obtain ⟨rfl, rfl⟩ := Prod.mk.inj (Except.ok.inj hpure)
      refine ⟨readLimit_rest hscan hlimit, ?_⟩
      intro m'
      cases m' <;> simp [has]

end Draft

/-! ### The values of the members -/

/-- A limit as a JSON value. -/
def limitValue : Option UInt64 → Value
  | none => .null
  | some n => .number (.natural n.toNat)

/-- **The value of a member** in a configuration. -/
def memberValue (c : Config) : Member → Value
  | .format => .string c.format.name.toList
  | .emitEndOfInput => .boolean c.emitEndOfInput
  | .maxTokens => limitValue c.maxTokens

theorem formatOfName_name (format : OutputFormat) (s : Input) :
    formatOfName format.name.toList s = .ok (format, s) := by
  have hname : OutputFormat.ofName? (String.ofList format.name.toList) = some format := by
    rw [String.ofList_toList]
    cases format <;> rfl
  simp only [formatOfName, hname]
  rfl

theorem readFormat_ofText {format : OutputFormat} {value : List Char}
    (h : Reads (.value (.string format.name.toList)) value []) (after : List Char) :
    readFormat (.ofText (value ++ after)) = .ok (format, .ofText after) := by
  obtain ⟨raw, hraw, rfl⟩ := Reads.string_iff.1 h
  have hquote : skipBlanks ('"' :: (raw ++ ['"']) ++ after) = '"' :: (raw ++ '"' :: after) := by
    rw [List.cons_append, List.append_assoc]
    rfl
  rw [readFormat, bind_of_eq_ok (nextSolid_ofText hquote (by decide))]
  simp only [if_true]
  rw [bind_of_eq_ok (readString_ofText hraw after), formatOfName_name]

theorem readFlag_ofText {flag : Bool} {value : List Char}
    (h : Reads (.value (.boolean flag)) value []) (after : List Char) :
    readFlag (.ofText (value ++ after)) = .ok (flag, .ofText after) := by
  obtain rfl := Reads.boolean_iff.1 h
  cases flag with
  | true =>
      have hletter : skipBlanks ('t' :: (['r', 'u', 'e'] ++ after)) =
          't' :: (['r', 'u', 'e'] ++ after) := rfl
      change readFlag (.ofText ('t' :: (['r', 'u', 'e'] ++ after))) = _
      rw [readFlag, bind_of_eq_ok (nextSolid_ofText hletter (by decide))]
      simp only [if_true]
      rw [bind_of_eq_ok (literal_ofText rfl after)]
      rfl
  | false =>
      have hletter : skipBlanks ('f' :: (['a', 'l', 's', 'e'] ++ after)) =
          'f' :: (['a', 'l', 's', 'e'] ++ after) := rfl
      change readFlag (.ofText ('f' :: (['a', 'l', 's', 'e'] ++ after))) = _
      rw [readFlag, bind_of_eq_ok (nextSolid_ofText hletter (by decide))]
      dsimp only
      rw [if_neg (by decide), if_pos rfl, bind_of_eq_ok (literal_ofText rfl after)]
      rfl

theorem readLimit_ofText {limit : Option UInt64} {value after : List Char}
    (h : Reads (.value (limitValue limit)) value []) (hscan : Scans .value (value ++ after) after) :
    readLimit (.ofText (value ++ after)) = .ok (limit, .ofText after) := by
  cases limit with
  | none =>
      obtain rfl := Reads.null_iff.1 h
      have hletter : skipBlanks ('n' :: (['u', 'l', 'l'] ++ after)) =
          'n' :: (['u', 'l', 'l'] ++ after) := rfl
      change readLimit (.ofText ('n' :: (['u', 'l', 'l'] ++ after))) = _
      rw [readLimit, bind_of_eq_ok (nextSolid_ofText hletter (by decide))]
      simp only [if_true]
      rw [bind_of_eq_ok (literal_ofText rfl after)]
      rfl
  | some n =>
      obtain ⟨hl, _, rfl⟩ := Reads.number_iff.1 h
      have hblank := hscan.skipBlanks_eq
      rw [List.append_nil] at hscan hblank ⊢
      obtain ⟨c, cs, htext, hkind⟩ := hl.exists_text_eq
      have hascii := toNat_lt_of_kindOf? hkind
      have hn : byte c ≠ byte 'n' := byte_ne_of_number hkind (by decide) (by decide)
      rw [htext, List.cons_append] at hscan hblank ⊢
      obtain ⟨_, _, _, hafter, _⟩ := hscan.exists_literal hkind
      have hnumber := readNumber_natural n.toNat_lt_size hafter
        ((Literal.text_natural n.toNat).symm.trans htext)
      rw [readLimit, bind_of_eq_ok (nextSolid_ofText hblank hascii)]
      dsimp only
      rw [if_neg hn, if_pos ((minus_or_digit_iff hascii).2 hkind), bind_of_eq_ok hnumber,
        UInt64.ofNat_toNat]
      rfl

namespace Draft

/-- A draft to which a member of a configuration is added. -/
def learn (d : Draft) (c : Config) : Member → Draft
  | .format => { d with format := some c.format }
  | .emitEndOfInput => { d with emitEndOfInput := some c.emitEndOfInput }
  | .maxTokens => { d with maxTokens := some c.maxTokens }

/-- **The value of a member is read as the member.** -/
theorem readMember_ofText {c : Config} {m : Member} {value after : List Char}
    (h : Reads (.value (c.memberValue m)) value []) (hscan : Scans .value (value ++ after) after)
    (d : Draft) :
    d.readMember m (.ofText (value ++ after)) = .ok (d.learn c m, .ofText after) := by
  cases m with
  | format =>
      rw [readMember, bind_of_eq_ok (readFormat_ofText h after)]
      rfl
  | emitEndOfInput =>
      rw [readMember, bind_of_eq_ok (readFlag_ofText h after)]
      rfl
  | maxTokens =>
      rw [readMember, bind_of_eq_ok (readLimit_ofText h hscan)]
      rfl

/-- The blanks before a value do not matter. -/
theorem readMember_skipBlanks (d : Draft) (m : Member) (cs : List Char) :
    d.readMember m (.ofText (skipBlanks cs)) = d.readMember m (.ofText cs) := by
  cases m with
  | format => exact bind_congr_input (bind_congr_input (nextSolid_skipBlanks cs))
  | emitEndOfInput => exact bind_congr_input (bind_congr_input (nextSolid_skipBlanks cs))
  | maxTokens => exact bind_congr_input (bind_congr_input (nextSolid_skipBlanks cs))

end Draft

end Config

end StreamLexer
