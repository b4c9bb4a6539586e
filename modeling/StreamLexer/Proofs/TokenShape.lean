/-
**The tokens that a text can give.**

Not every token comes out of a text.  An identifier is a word: a letter, and letters and digits
after it.  A number is the value of digits and points, so it has no sign and stands for a number.
The scanner knows this at any time: what it has read is of the kind that its state says.

Main definitions:

* `StreamLexer.IsWord`, `StreamLexer.IsNumberText` — the texts of words and of numbers;
* `StreamLexer.Token.OfText` — **the tokens that a text can give**;
* `StreamLexer.Scan.Holds` — what has been read is of the kind that the state says.

Main results:

* `StreamLexer.Scan.Holds.step` — what has been read is of that kind after one more character;
* `StreamLexer.Scan.Holds.ofText_tokens` — the tokens that come from any state are tokens of a text;
* `StreamLexer.Tokenizer.ofText_collect` — **the tokens of a tokenizer are tokens of a text**.
-/

import StreamLexer.Proofs.NumberLayout
import StreamLexer.Proofs.TextScan

set_option relaxedAutoImplicit false
set_option autoImplicit false

namespace StreamLexer

open CharClass

/-- A letter, and letters and digits after it. -/
def IsWord (cs : List Char) : Prop :=
  ∃ c cs', cs = c :: cs' ∧ isWordStart c = true ∧ ∀ d ∈ cs', isWordPart d = true

/-- Digits and points, and at least one of them. -/
def IsNumberText (cs : List Char) : Prop := cs ≠ [] ∧ ∀ c ∈ cs, isNumberPart c = true

/-- **The tokens that a text can give.** -/
inductive Token.OfText : Token → Prop
  | keyword (k : Keyword) : OfText (.keyword k)
  | primitiveType (t : PrimitiveType) : OfText (.primitiveType t)
  | identifier {cs : List Char} : IsWord cs → OfText (.identifier (String.ofList cs))
  | number {x : Binary64} : x.negative = false → x.isNaN = false → OfText (.number x)
  | symbol (c : Char) : OfText (.symbol c)

/-! ### Words and numbers -/

theorem IsWord.append {cs : List Char} (h : IsWord cs) {d : Char} (hd : isWordPart d = true) :
    IsWord (cs ++ [d]) := by
  obtain ⟨c, cs', rfl, hc, hcs'⟩ := h
  refine ⟨c, cs' ++ [d], rfl, hc, ?_⟩
  intro e he
  rcases List.mem_append.1 he with he | he
  · exact hcs' e he
  · rwa [List.mem_singleton.1 he]

/-- A word is a name, whatever it is the name of. -/
theorem IsWord.ofText_ofWord {cs : List Char} (h : IsWord cs) : (Token.ofWord cs).OfText := by
  unfold Token.ofWord
  dsimp only
  split
  · exact .keyword _
  · split
    · exact .primitiveType _
    · exact .identifier h

theorem IsNumberText.append {cs : List Char} (h : IsNumberText cs) {d : Char}
    (hd : isNumberPart d = true) : IsNumberText (cs ++ [d]) := by
  refine ⟨by simp, ?_⟩
  intro e he
  rcases List.mem_append.1 he with he | he
  · exact h.2 e he
  · rwa [List.mem_singleton.1 he]

/-- The value nearest to a decimal has no sign and stands for a number. -/
theorem Decimal.toBinary64_proper (d : Decimal) :
    d.toBinary64.negative = false ∧ d.toBinary64.isNaN = false := by
  rw [toBinary64_eq_ofRatio]
  have hle : Binary64.magnitudeOfRatio d.num d.den ≤ Binary64.infinityMagnitude :=
    Nat.min_le_right _ _
  exact ⟨rfl, decide_eq_false (Nat.not_lt.2 hle)⟩

theorem toLower_of_isDigit {c : Char} (h : c.isDigit = true) : c.toLower = c := by
  simp only [Char.isDigit, Bool.and_eq_true, decide_eq_true_eq] at h
  unfold Char.toLower
  refine dif_neg ?_
  intro hupper
  exact absurd (UInt32.le_trans hupper.1 h.2) (by decide)

/-- A digit or a point is no letter, nor a sign. -/
theorem of_isNumberPart {c : Char} (h : isNumberPart c = true) :
    c.toLower ≠ 'n' ∧ c.toLower ≠ 'i' ∧ c ≠ '+' ∧ c ≠ '-' := by
  have hc : c.isDigit = true ∨ c = '.' := by simpa [isNumberPart] using h
  rcases hc with hdigit | rfl
  · rw [toLower_of_isDigit hdigit]
    refine ⟨?_, ?_, ?_, ?_⟩ <;> rintro rfl <;> exact absurd hdigit (by decide)
  · decide

/-- Digits and points spell none of the words for values. -/
theorem IsNumberText.wordValue_eq {cs : List Char} (h : IsNumberText cs) :
    wordValue cs = .zero := by
  obtain ⟨c, cs', rfl⟩ := List.exists_cons_of_ne_nil h.1
  obtain ⟨hn, hi, _, _⟩ := of_isNumberPart (h.2 c List.mem_cons_self)
  simp [wordValue, hn, hi]

theorem IsNumberText.readSign_eq {cs : List Char} (h : IsNumberText cs) :
    readSign cs = (false, cs) := by
  obtain ⟨c, cs', rfl⟩ := List.exists_cons_of_ne_nil h.1
  obtain ⟨_, _, hplus, hminus⟩ := of_isNumberPart (h.2 c List.mem_cons_self)
  unfold readSign
  split
  · next heq => exact absurd (List.cons.inj heq).1 hplus
  · next heq => exact absurd (List.cons.inj heq).1 hminus
  · rfl

/-- **The value of digits and points** has no sign and stands for a number. -/
theorem IsNumberText.numberValue_proper {cs : List Char} (h : IsNumberText cs) :
    (numberValue cs).negative = false ∧ (numberValue cs).isNaN = false := by
  unfold numberValue
  rw [h.readSign_eq]
  dsimp only
  split
  · rw [h.wordValue_eq]
    exact ⟨rfl, rfl⟩
  · next mantissa rest _ =>
      split
      · exact ⟨rfl, rfl⟩
      · next scale _ =>
          rw [Binary64.withSign_toBinary64]
          exact (mantissa.toDecimal scale).toBinary64_proper

/-! ### The scanner -/

namespace Scan

/-- **What has been read is of the kind that the state says.** -/
def Holds : Scan → Prop
  | word cs => IsWord cs.reverse
  | number cs => IsNumberText cs.reverse
  | _ => True

theorem holds_start : start.Holds := trivial

theorem holds_enter (c : Char) : (enter c).Holds := by
  unfold enter
  split
  · exact trivial
  · split
    · next hc =>
        refine ⟨c, [], rfl, hc, ?_⟩
        intro d hd
        exact absurd hd List.not_mem_nil
    · split
      · next hc =>
          refine ⟨by simp, ?_⟩
          intro d hd
          rwa [List.mem_singleton.1 hd]
      · split
        · exact trivial
        · exact trivial

/-- **One more character** leaves what has been read of the kind that the state says. -/
theorem Holds.step {state state' : Scan} (h : state.Holds) {c : Char}
    (hs : state.step c = some state') : state'.Holds := by
  cases state with
  | start =>
      obtain rfl : enter c = state' := Option.some.inj hs
      exact holds_enter c
  | word cs =>
      cases hc : isWordPart c with
      | false => simp [Scan.step, hc] at hs
      | true =>
          obtain rfl : word (c :: cs) = state' := by simpa [Scan.step, hc] using hs
          rw [Holds, List.reverse_cons]
          exact IsWord.append h hc
  | number cs =>
      cases hc : isNumberPart c with
      | false => simp [Scan.step, hc] at hs
      | true =>
          obtain rfl : number (c :: cs) = state' := by simpa [Scan.step, hc] using hs
          rw [Holds, List.reverse_cons]
          exact IsNumberText.append h hc
  | slash =>
      simp only [Scan.step] at hs
      split at hs
      · obtain rfl := Option.some.inj hs
        exact trivial
      · split at hs
        · obtain rfl := Option.some.inj hs
          exact trivial
        · cases hs
  | symbol d => cases hs
  | comment k =>
      simp only [Scan.step] at hs
      split at hs
      · obtain rfl := Option.some.inj hs
        exact trivial
      · obtain rfl := Option.some.inj hs
        exact trivial

/-- A token that is complete is one that a text can give. -/
theorem Holds.ofText_completed {state : Scan} (h : state.Holds) :
    ∀ token ∈ state.completed, token.OfText := by
  intro token htoken
  cases state with
  | start => exact absurd htoken List.not_mem_nil
  | comment k => exact absurd htoken List.not_mem_nil
  | word cs =>
      rw [List.mem_singleton.1 htoken]
      exact IsWord.ofText_ofWord h
  | number cs =>
      rw [List.mem_singleton.1 htoken]
      obtain ⟨hsign, hnumber⟩ := IsNumberText.numberValue_proper h
      exact .number hsign hnumber
  | slash =>
      rw [List.mem_singleton.1 htoken]
      exact .symbol _
  | symbol c =>
      rw [List.mem_singleton.1 htoken]
      exact .symbol c

/-- **From any state the tokens of a text are tokens that a text can give.** -/
theorem Holds.ofText_tokens {state : Scan} (h : state.Holds) (cs : List Char) :
    ∀ token ∈ state.tokens cs, token.OfText := by
  induction cs generalizing state with
  | nil => exact h.ofText_completed
  | cons c cs ih =>
      cases hs : state.step c with
      | some state' =>
          rw [tokens_cons_of_some hs]
          exact ih (h.step hs)
      | none =>
          intro token htoken
          rw [tokens_cons_of_none hs, tokens_start_cons] at htoken
          rcases List.mem_cons.1 htoken with rfl | htoken
          · refine h.ofText_completed _ ?_
            rw [(completed_of_step_eq_none hs).2]
            exact List.mem_singleton_self _
          · exact ih (holds_enter c) token htoken

end Scan

/-- **Over any source the tokens of a tokenizer are tokens that a text can give.** -/
theorem Tokenizer.ofText_collect {σ : Type} [CharSource σ] (t : Tokenizer σ) :
    ∀ token ∈ t.collect.1, token.OfText := by
  rw [collect_fst]
  exact Scan.holds_start.ofText_tokens t.unread

end StreamLexer
