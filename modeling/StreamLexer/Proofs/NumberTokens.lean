/-
**Numbers among the tokens.**

The value of a number is asked for when its token is complete, and then for a text of digits and
points.  Of all that the reading of values provides for — a sign, an exponent, a word in place of
digits — such a text has nothing, so what decides its value is its digits and one point.  That value
has no sign and stands for a number, infinity included, and so every token of a text equals itself.

Main definitions:

* `StreamLexer.Scan.numberText?`, `StreamLexer.Tokenizer.numberTexts` — **the texts whose values are
  asked for**;
* `StreamLexer.ReadPlainly` — a text without sign, exponent and word;
* `StreamLexer.Binary64.IsPlain` — a zero, a positive value or infinity, all without a sign.

Main results:

* `StreamLexer.Tokenizer.filterMap_calls` — the numbers among the tokens are the values of these
  texts;
* `StreamLexer.Tokenizer.isNumberText_of_mem` — the texts asked for are digits and points;
* `StreamLexer.Token.OfText.equal_self` — a token of a text equals itself;
* `StreamLexer.numberTokens_plain` — **numbers among the tokens are plain**.
-/

import StreamLexer.Proofs.NumeralValue
import StreamLexer.Proofs.Calls

set_option relaxedAutoImplicit false
set_option autoImplicit false

namespace StreamLexer

open Grammar

/-! ### The texts whose values are asked for -/

/-- The text whose value is asked for when the token of a state is made. -/
def Scan.numberText? : Scan → Option (List Char)
  | number cs => some cs.reverse
  | _ => none

/-- The value of a number. -/
def Token.number? : Token → Option Binary64
  | number x => some x
  | _ => none

/-- A word is no number. -/
theorem Token.number?_ofWord (cs : List Char) : (ofWord cs).number? = none := by
  unfold ofWord
  dsimp only
  split
  · rfl
  · split <;> rfl

/-- **A token is a number where a value is asked for**, and it is that value. -/
theorem Scan.number?_token (state : Scan) :
    state.token.number? = state.numberText?.map numberValue := by
  cases state with
  | word cs => exact Token.number?_ofWord cs.reverse
  | start | number | slash | symbol | comment => rfl

namespace Tokenizer

variable {σ : Type} [CharSource σ]

/-- The state of the scanner in which a token is complete. -/
def scanEnd (state : Scan) (t : Tokenizer σ) : Scan :=
  match _h : t.lookahead with
  | none => state
  | some c =>
      match state.step c with
      | none => state
      | some state' => scanEnd state' t.advance
termination_by t.pending
decreasing_by exact pending_advance_lt _h

/-- The texts whose values are asked for in so many calls for the next token. -/
def numberTexts : Nat → Tokenizer σ → List (List Char)
  | 0, _ => []
  | k + 1, t => (scanEnd .start t).numberText?.toList ++ numberTexts k t.nextToken.2

/-- **The token is that of the state in which the scanner ends.** -/
theorem scanFrom_fst (state : Scan) (t : Tokenizer σ) :
    (scanFrom state t).1 = (scanEnd state t).token := by
  fun_induction scanEnd state t with
  | case1 state t h => rw [scanFrom_of_none h]
  | case2 state t c h hs => rw [scanFrom_of_some h, hs]
  | case3 state t c h state' hs ih => rw [scanFrom_of_some h, hs, ih]

/-- What has been read when the scanner ends is of the kind that the state says. -/
theorem holds_scanEnd {state : Scan} (h : state.Holds) (t : Tokenizer σ) :
    (scanEnd state t).Holds := by
  fun_induction scanEnd state t with
  | case1 => exact h
  | case2 => exact h
  | case3 state t c _ state' hs ih => exact ih (h.step hs)

/-- **The numbers among the tokens are the values that are asked for**, in order. -/
theorem filterMap_calls (k : Nat) (t : Tokenizer σ) :
    (t.calls k).1.filterMap Token.number? = (t.numberTexts k).map numberValue := by
  induction k generalizing t with
  | zero => rfl
  | succ k ih =>
      rcases ht : t.nextToken with ⟨token, t'⟩
      have htoken : token = (scanEnd .start t).token := by
        rw [← scanFrom_fst]
        exact (congrArg Prod.fst ht).symm
      rw [calls_succ_of_nextToken ht, numberTexts, ht, List.map_append, ← ih, htoken]
      cases hs : (scanEnd .start t).numberText? with
      | none =>
          have hnone : (scanEnd .start t).token.number? = none := by
            rw [Scan.number?_token, hs]
            rfl
          simp [hnone]
      | some cs =>
          have hsome : (scanEnd .start t).token.number? = some (numberValue cs) := by
            rw [Scan.number?_token, hs]
            rfl
          simp [hsome]

/-- **The texts whose values are asked for are digits and points.** -/
theorem isNumberText_of_mem {k : Nat} {t : Tokenizer σ} {cs : List Char}
    (h : cs ∈ t.numberTexts k) : IsNumberText cs := by
  induction k generalizing t with
  | zero => cases h
  | succ k ih =>
      rcases List.mem_append.1 h with hfirst | hlater
      · have hholds := holds_scanEnd Scan.holds_start t
        cases hs : scanEnd .start t with
        | number ds =>
            rw [hs] at hfirst hholds
            rw [List.mem_singleton.1 hfirst]
            exact hholds
        | _ =>
            rw [hs] at hfirst
            cases hfirst
      · exact ih hlater

/-- The end of the input is no number. -/
theorem filterMap_beforeEnd (tokens : List Token) :
    (beforeEnd tokens).filterMap Token.number? = tokens.filterMap Token.number? := by
  rw [beforeEnd, List.filterMap_filter]
  congr 1
  funext token
  cases token <;> rfl

end Tokenizer

/-! ### Plain texts and plain values -/

/-- **A text that is read without a sign, an exponent or a word.** -/
structure ReadPlainly (cs : List Char) : Prop where
  ne_nil : cs ≠ []
  numberPart : ∀ c ∈ cs, NumberPart c
  /-- No sign is taken off. -/
  no_sign : readSign cs = (false, cs) ∧ ∀ c ∈ cs.head?, c ≠ '+' ∧ c ≠ '-'
  /-- After the digits comes no exponent, so none that is malformed. -/
  no_exponent : ∀ m rest, Mantissa.read? cs = some (m, rest) →
    readExponent? rest = some 0 ∧ ∀ c ∈ rest.head?, c ≠ 'e' ∧ c ≠ 'E'
  /-- Without digits there is no word. -/
  no_word : (cs.take 3).map Char.toLower ≠ ['n', 'a', 'n'] ∧
    (cs.take 3).map Char.toLower ≠ ['i', 'n', 'f']
  /-- What is left to decide the value is the mantissa. -/
  value_eq : numberValue cs = match Mantissa.read? cs with
    | none => .zero
    | some (m, _) => (m.toDecimal 0).toBinary64

/-- A digit or a point is neither a sign nor the letter of an exponent. -/
theorem Grammar.NumberPart.ne {c : Char} (h : NumberPart c) :
    c ≠ '+' ∧ c ≠ '-' ∧ c ≠ 'e' ∧ c ≠ 'E' := by
  refine ⟨?_, ?_, ?_, ?_⟩ <;> rintro rfl <;> exact absurd h (by decide)

theorem IsNumberText.readPlainly {cs : List Char} (h : IsNumberText cs) : ReadPlainly cs := by
  have hparts : ∀ c ∈ cs, NumberPart c := fun c hc => isNumberPart_iff.1 (h.2 c hc)
  obtain ⟨d, ds, rfl⟩ := List.exists_cons_of_ne_nil h.1
  obtain ⟨hn, hi, _, _⟩ := of_isNumberPart (h.2 d List.mem_cons_self)
  refine ⟨h.1, hparts, ⟨h.readSign_eq, ?_⟩, ?_, ?_, ?_⟩
  · intro c hc
    have hne := (hparts c (List.mem_of_mem_head? hc)).ne
    exact ⟨hne.1, hne.2.1⟩
  · intro m rest hread
    obtain ⟨p, hp, _⟩ := Mantissa.exists_longestNumeral hread
    have hrest : ∀ c ∈ rest, NumberPart c :=
      fun c hc => hparts c (hp ▸ List.mem_append_right p hc)
    refine ⟨readExponent?_of_numberPart hrest, ?_⟩
    intro c hc
    exact (hrest c (List.mem_of_mem_head? hc)).ne.2.2
  · constructor
    · intro heq
      exact hn (List.cons.inj heq).1
    · intro heq
      exact hi (List.cons.inj heq).1
  · cases hread : Mantissa.read? (d :: ds) with
    | none => exact numberValue_of_read?_none hparts hread
    | some parts => exact numberValue_of_read?_some hparts hread

/-- **Zero, a positive finite value or infinity**, each without a sign. -/
inductive Binary64.IsPlain : Binary64 → Prop
  | zero : IsPlain .zero
  | positive {x : Binary64} : x.negative = false → 0 < x.magnitude → x.isFinite = true → IsPlain x
  | infinity : IsPlain .infinity

/-- A value without a sign that stands for a number is plain. -/
theorem Binary64.isPlain_of_not_isNaN {x : Binary64} (hsign : x.negative = false)
    (hnan : x.isNaN = false) : x.IsPlain := by
  have hle : x.magnitude ≤ infinityMagnitude := magnitude_le_of_not_isNaN hnan
  have hx := eq_ofMagnitude hsign hle
  rcases Nat.eq_zero_or_pos x.magnitude with h0 | hpos
  · have hzero : x = .zero := by
      rw [hx]
      simp only [h0]
      rfl
    exact hzero ▸ .zero
  · rcases Nat.lt_or_eq_of_le hle with hlt | htop
    · exact .positive hsign hpos (decide_eq_true hlt)
    · have hinfinity : x = .infinity := by
        rw [hx]
        simp only [htop]
        rfl
      exact hinfinity ▸ .infinity

/-- A number equals itself. -/
theorem Binary64.equal_self {x : Binary64} (h : x.isNaN = false) : x.equal x = true := by
  simp [equal, h]

/-- **A token of a text equals itself.** -/
theorem Token.OfText.equal_self {token : Token} (h : token.OfText) : token.equal token = true := by
  cases h with
  | number _ hnan => exact Binary64.equal_self hnan
  | keyword | primitiveType | identifier | symbol => exact beq_self_eq_true _

/-- Tokens of a text equal themselves. -/
theorem isEqv_self {tokens : List Token} (h : ∀ token ∈ tokens, token.OfText) :
    tokens.isEqv tokens Token.equal = true := by
  induction tokens with
  | nil => rfl
  | cons token tokens ih =>
      have hfirst := (h token List.mem_cons_self).equal_self
      have hlater := ih fun other hother => h other (List.mem_cons_of_mem token hother)
      rw [List.isEqv, hfirst, hlater]
      rfl

/-- **Numbers among the tokens are plain.**  Over any source, the numbers among the tokens of so
many calls are the values of texts of digits and points, which have nothing of a sign, of an
exponent or of a word; none of them is negative and none is not a number.  So are the numbers of a
whole text, and its tokens equal themselves. -/
theorem numberTokens_plain {σ : Type} [CharSource σ] (t : Tokenizer σ) (k : Nat) (s : String) :
    ((t.calls k).1.filterMap Token.number? = (t.numberTexts k).map numberValue ∧
        ∀ cs ∈ t.numberTexts k, ReadPlainly cs ∧ (numberValue cs).IsPlain ∧
          (numberValue cs).negative = false ∧ (numberValue cs).isNaN = false) ∧
      (∃ n, (tokenize s).filterMap Token.number? =
        ((Tokenizer.ofString s).numberTexts n).map numberValue) ∧
      (∀ x, Token.number x ∈ tokenize s → x.IsPlain ∧ x.negative = false ∧ x.isNaN = false) ∧
      (tokenize s).isEqv (tokenize s) Token.equal = true := by
  have htokens : ∀ token ∈ tokenize s, token.OfText := (Tokenizer.ofString s).ofText_collect
  refine ⟨⟨Tokenizer.filterMap_calls k t, ?_⟩, ?_, ?_, isEqv_self htokens⟩
  · intro cs hcs
    have htext := Tokenizer.isNumberText_of_mem hcs
    obtain ⟨hsign, hnan⟩ := htext.numberValue_proper
    exact ⟨htext.readPlainly, Binary64.isPlain_of_not_isNaN hsign hnan, hsign, hnan⟩
  · obtain ⟨n, hn⟩ := exists_calls_collect (Tokenizer.ofString s)
    refine ⟨n, ?_⟩
    rw [tokenize, hn, Tokenizer.filterMap_beforeEnd, Tokenizer.filterMap_calls]
  · intro x hx
    cases htokens _ hx with
    | number hsign hnan => exact ⟨Binary64.isPlain_of_not_isNaN hsign hnan, hsign, hnan⟩

/-- Neither the letter of an exponent nor a sign comes to be read with a number. -/
theorem numberTokens_plain_of_exponent :
    (Tokenizer.ofString "1e-.5nan").numberTexts 5 = ["1".toList, ".5".toList] ∧
      ReadPlainly ".5".toList ∧ (numberValue ".5".toList).IsPlain ∧
      (tokenize "1e-.5nan").isEqv (tokenize "1e-.5nan") Token.equal = true := by
  have htexts : (Tokenizer.ofString "1e-.5nan").numberTexts 5 = ["1".toList, ".5".toList] := by
    decide +kernel
  obtain ⟨⟨_, hplain⟩, _, _, hequal⟩ :=
    numberTokens_plain (Tokenizer.ofString "1e-.5nan") 5 "1e-.5nan"
  have hmem : ".5".toList ∈ (Tokenizer.ofString "1e-.5nan").numberTexts 5 := by
    rw [htexts]
    exact List.mem_cons_of_mem _ List.mem_cons_self
  obtain ⟨hread, hvalue, _⟩ := hplain _ hmem
  exact ⟨htexts, hread, hvalue, hequal⟩

end StreamLexer
