/-
**Running text loses nothing.**

In running text the kind of a token and its value stand on a line of their own, and nothing that
such a line shows contains a line feed.  So the lines of an output can be told apart, and each of
them tells its token.  For symbols this does not depend on which characters are thought to have no
picture: however they are chosen, an escape begins with a backslash, and no character that is shown
as it is does.

Main definitions:

* `StreamLexer.escapeCharBy`, `StreamLexer.Token.textBy` — a character and a token as they are
  shown, with any choice of the characters that have no picture;
* `StreamLexer.Config.writtenTokens` — the tokens that are written, the end of the input included;
* `StreamLexer.Config.transcriptBy` — **the lines of these tokens**.

Main results:

* `StreamLexer.toDigits_injective` — the digits of a number tell it;
* `StreamLexer.Shown.unique` — **different characters are shown differently**;
* `StreamLexer.Token.textBy_injective` — **different tokens are shown differently**;
* `StreamLexer.writeTokens_text` — **what is written tells the tokens**.
-/

import StreamLexer.Proofs.LineFraming
import StreamLexer.Proofs.TokenShape
import StreamLexer.Proofs.WordTable
import StreamLexer.Proofs.Writing

set_option relaxedAutoImplicit false
set_option autoImplicit false

namespace StreamLexer

/-! ### Characters -/

/-- A character as it is shown, where the characters of `quotes` are quotes and those that `hidden`
selects have no picture. -/
def escapeCharBy (hidden : Char → Bool) (quotes : List Char) (c : Char) : List Char :=
  match escapeLetter? c with
  | some l => ['\\', l]
  | none =>
      if c = '\\' || quotes.contains c then ['\\', c]
      else if hidden c then escapeCodePoint c
      else [c]

theorem digitChar_injective : ∀ a < 16, ∀ b < 16, Nat.digitChar a = Nat.digitChar b → a = b := by
  decide

/-- **The digits of a number tell it.** -/
theorem toDigits_injective {m n : Nat} (h : Nat.toDigits 16 m = Nat.toDigits 16 n) : m = n := by
  induction m using Nat.strongRecOn generalizing n with
  | ind m ih =>
      rw [Nat.toDigits_eq_if (by decide), Nat.toDigits_eq_if (n := n) (by decide)] at h
      split at h
      · next hm =>
          split at h
          · next hn => exact digitChar_injective m hm n hn (List.cons.inj h).1
          · have hlength := congrArg List.length h
            have hpos : 0 < (Nat.toDigits 16 (n / 16)).length := Nat.length_toDigits_pos
            simp only [List.length_append, List.length_cons, List.length_nil] at hlength
            omega
      · next hm =>
          split at h
          · have hlength := congrArg List.length h
            have hpos : 0 < (Nat.toDigits 16 (m / 16)).length := Nat.length_toDigits_pos
            simp only [List.length_append, List.length_cons, List.length_nil] at hlength
            omega
          · obtain ⟨hquotient, hdigit⟩ := List.append_inj' h rfl
            have hq : m / 16 = n / 16 := ih (m / 16) (by omega) hquotient
            have hr : m % 16 = n % 16 := digitChar_injective _ (Nat.mod_lt _ (by decide)) _
              (Nat.mod_lt _ (by decide)) (List.cons.inj hdigit).1
            omega

/-- The characters that are shown behind a backslash, and what stands for them there. -/
def shortEscapes : List (Char × Char) :=
  [('\x00', '0'), ('\t', 't'), ('\r', 'r'), ('\n', 'n'), ('\\', '\\'), ('\'', '\''), ('"', '"')]

theorem shortEscapes_injective :
    ∀ p ∈ shortEscapes, ∀ q ∈ shortEscapes, p.2 = q.2 → p.1 = q.1 := by
  decide

theorem mem_shortEscapes_of_letter {c l : Char} (h : escapeLetter? c = some l) :
    (c, l) ∈ shortEscapes := by
  unfold escapeLetter? at h
  split at h
  · rw [← Option.some.inj h]
    decide
  · rw [← Option.some.inj h]
    decide
  · rw [← Option.some.inj h]
    decide
  · rw [← Option.some.inj h]
    decide
  · cases h

/-- **How a character is shown**: behind a backslash, by its code point, or as it is. -/
inductive Shown (c : Char) : List Char → Prop
  | short {l : Char} : (c, l) ∈ shortEscapes → Shown c ['\\', l]
  | codePoint : Shown c (escapeCodePoint c)
  | plain : c ≠ '\\' → c ≠ '\n' → Shown c [c]

theorem shown_escapeCharBy (hidden : Char → Bool) (c : Char) :
    Shown c (escapeCharBy hidden ['\'', '"'] c) := by
  unfold escapeCharBy
  split
  · next l hl => exact .short (mem_shortEscapes_of_letter hl)
  · next hl =>
      split
      · next hquoted =>
          have hc : c = '\\' ∨ c = '\'' ∨ c = '"' := by simpa using hquoted
          rcases hc with rfl | rfl | rfl
          · exact .short (by decide)
          · exact .short (by decide)
          · exact .short (by decide)
      · next hquoted =>
          split
          · exact .codePoint
          · refine .plain ?_ ?_
            · rintro rfl
              exact hquoted (by simp)
            · rintro rfl
              cases hl

namespace Shown

variable {c c' : Char} {cs : List Char}

/-- **Different characters are shown differently.** -/
theorem unique (h : Shown c cs) (h' : Shown c' cs) : c = c' := by
  cases h with
  | @short l hl =>
      generalize hcs : ['\\', l] = cs at h'
      cases h' with
      | @short l' hl' =>
          obtain rfl : l = l' := (List.cons.inj (List.cons.inj hcs).2).1
          exact shortEscapes_injective _ hl _ hl' rfl
      | codePoint => simp [escapeCodePoint] at hcs
      | plain => simp at hcs
  | codePoint =>
      generalize hcs : escapeCodePoint c = cs at h'
      cases h' with
      | short => simp [escapeCodePoint] at hcs
      | codePoint =>
          have hdigits : Nat.toDigits 16 c.toNat = Nat.toDigits 16 c'.toNat := by
            simpa [escapeCodePoint] using hcs
          exact Char.toNat_inj.1 (toDigits_injective hdigits)
      | plain => simp [escapeCodePoint] at hcs
  | plain =>
      generalize hcs : [c] = cs at h'
      cases h' with
      | short => simp at hcs
      | codePoint => simp [escapeCodePoint] at hcs
      | plain => exact (List.cons.inj hcs).1

theorem digitChar_ne_newline : ∀ n < 16, Nat.digitChar n ≠ '\n' := by
  decide

theorem newline_not_mem_toDigits (n : Nat) : '\n' ∉ Nat.toDigits 16 n := by
  induction n using Nat.strongRecOn with
  | ind n ih =>
      rw [Nat.toDigits_eq_if (by decide)]
      split
      · next hn =>
          intro hmem
          exact digitChar_ne_newline n hn (List.mem_singleton.1 hmem).symm
      · intro hmem
        rcases List.mem_append.1 hmem with hmem | hmem
        · exact ih (n / 16) (by omega) hmem
        · exact digitChar_ne_newline _ (Nat.mod_lt _ (by decide)) (List.mem_singleton.1 hmem).symm

/-- No line feed is shown as it is. -/
theorem newline_not_mem (h : Shown c cs) : '\n' ∉ cs := by
  cases h with
  | @short l hl =>
      have hne : ∀ p ∈ shortEscapes, p.2 ≠ '\n' := by simp [shortEscapes]
      simpa using (hne _ hl).symm
  | codePoint =>
      have hdigits := newline_not_mem_toDigits c.toNat
      simp [escapeCodePoint, hdigits]
  | plain _ hne => simpa using hne.symm

end Shown

/-! ### Tokens -/

namespace Token

/-- **A token in running text**, where the characters that `hidden` selects have no picture. -/
def textBy (hidden : Char → Bool) : Token → String
  | endOfInput => "end of input"
  | keyword k => labelled "keyword" k.spelling
  | primitiveType t => labelled "primitive type" t.spelling
  | identifier name => labelled "identifier" name
  | number x => "number " ++ x.text
  | symbol c => labelled "symbol" (String.ofList (escapeCharBy hidden ['\'', '"'] c))

theorem text_eq_textBy (token : Token) : token.text = token.textBy Unicode.isHidden := by
  cases token <;> rfl

theorem labelled_injective {label value value' : String}
    (h : labelled label value = labelled label value') : value = value' := by
  rw [← String.toList_inj] at h ⊢
  simpa [labelled] using h

/-- Numbers, if there are any, stand for numbers. -/
def Proper (token : Token) : Prop := ∀ x, token = number x → x.isNaN = false

/-- The letter that the name of its kind begins with. -/
def initial : Token → Char
  | endOfInput => 'e'
  | keyword _ => 'k'
  | primitiveType _ => 'p'
  | identifier _ => 'i'
  | number _ => 'n'
  | symbol _ => 's'

theorem head?_textBy (hidden : Char → Bool) (token : Token) :
    (token.textBy hidden).toList.head? = some token.initial := by
  cases token <;> simp [textBy, labelled, initial]

variable {hidden : Char → Bool} {token token' : Token}

/-- **Different tokens are shown differently**, whichever characters have no picture. -/
theorem textBy_injective (h : token.Proper) (h' : token'.Proper)
    (he : token.textBy hidden = token'.textBy hidden) : token = token' := by
  -- the names of the kinds differ in their first letters
  have hinitial : token.initial = token'.initial := by
    have hhead := congrArg (fun s => s.toList.head?) he
    simp only [head?_textBy] at hhead
    exact Option.some.inj hhead
  cases token with
  | endOfInput =>
      cases token' with
      | endOfInput => rfl
      | _ => simp [initial] at hinitial
  | keyword k =>
      cases token' with
      | keyword k' => rw [Keyword.spelling_injective (labelled_injective he)]
      | _ => simp [initial] at hinitial
  | primitiveType t =>
      cases token' with
      | primitiveType t' => rw [PrimitiveType.spelling_injective (labelled_injective he)]
      | _ => simp [initial] at hinitial
  | identifier name =>
      cases token' with
      | identifier name' => rw [labelled_injective he]
      | _ => simp [initial] at hinitial
  | number x =>
      cases token' with
      | number x' =>
          have htext : x.text = x'.text := by
            rw [← String.toList_inj] at he ⊢
            simpa [textBy] using he
          rw [Binary64.text_injective (h x rfl) (h' x' rfl) htext]
      | _ => simp [initial] at hinitial
  | symbol c =>
      cases token' with
      | symbol c' =>
          have hshown : escapeCharBy hidden ['\'', '"'] c = escapeCharBy hidden ['\'', '"'] c' :=
            String.ofList_inj.1 (labelled_injective he)
          have hc' := shown_escapeCharBy hidden c'
          rw [← hshown] at hc'
          rw [(shown_escapeCharBy hidden c).unique hc']
      | _ => simp [initial] at hinitial

end Token

theorem IsWord.newline_not_mem {cs : List Char} (h : IsWord cs) : '\n' ∉ cs := by
  obtain ⟨c, cs', rfl, hc, hcs'⟩ := h
  intro hmem
  rcases List.mem_cons.1 hmem with rfl | hmem
  · exact absurd hc (by decide)
  · exact absurd (hcs' _ hmem) (by decide)

namespace Token

variable {hidden : Char → Bool} {token : Token}

theorem OfText.proper (h : token.OfText) : token.Proper := by
  rintro x rfl
  cases h with
  | number _ hx => exact hx

theorem newline_not_mem_labelled {label value : String} (hlabel : '\n' ∉ label.toList)
    (hvalue : '\n' ∉ value.toList) : '\n' ∉ (labelled label value).toList := by
  simp [labelled, hlabel, hvalue]

/-- **A token that a text can give is shown on one line.** -/
theorem OfText.newline_not_mem (h : token.OfText) : '\n' ∉ (token.textBy hidden).toList := by
  cases h with
  | keyword k => exact newline_not_mem_labelled (by decide) (by cases k <;> decide)
  | primitiveType t => exact newline_not_mem_labelled (by decide) (by cases t <;> decide)
  | @identifier cs hword =>
      refine newline_not_mem_labelled (by decide) ?_
      rw [String.toList_ofList]
      exact hword.newline_not_mem
  | number _ hx =>
      simpa [textBy] using Binary64.newline_not_mem_text hx
  | symbol c =>
      refine newline_not_mem_labelled (by decide) ?_
      rw [String.toList_ofList]
      exact (shown_escapeCharBy hidden c).newline_not_mem

theorem endOfInput_proper : endOfInput.Proper := by
  intro x hx
  cases hx

/-- The bytes of a token's line in running text. -/
def lineBy (hidden : Char → Bool) (token : Token) : List UInt8 :=
  encodeUtf8 ((token.textBy hidden).toList ++ ['\n'])

theorem line_text_eq_lineBy (token : Token) :
    token.line .text = token.lineBy Unicode.isHidden := by
  rw [line_text, text_eq_textBy, lineBy, encodeUtf8_append]
  rfl

end Token

/-! ### What is written -/

namespace Config

/-- **The tokens that are written**, the end of the input included if it gets a line. -/
def writtenTokens (config : Config) (tokens : List Token) : List Token :=
  config.allowed 0 tokens ++
    if config.reachesEnd 0 tokens && config.emitEndOfInput then [.endOfInput] else []

/-- **The lines of the tokens that are written**, in running text, where the characters that
`hidden` selects have no picture. -/
def transcriptBy (config : Config) (hidden : Char → Bool) (tokens : List Token) : List UInt8 :=
  ((config.writtenTokens tokens).map (Token.lineBy hidden)).flatten

variable {config : Config} {tokens : List Token}

theorem lines_eq_map_writtenTokens (config : Config) (tokens : List Token) :
    config.lines 0 tokens = (config.writtenTokens tokens).map (Token.line config.format) := by
  rw [lines, writtenTokens, List.map_append]
  split <;> rfl

/-- What an empty sink without a bound holds in the end. -/
theorem writeTokens_eq_writtenTokens (config : Config) {σ : Type} [CharSource σ]
    (t : Tokenizer σ) :
    (writeTokens config t {}).result = .ok (config.allowed 0 t.collect.1).length ∧
      (writeTokens config t {}).sink.accepted.toList =
        ((config.writtenTokens t.collect.1).map (Token.line config.format)).flatten := by
  have hwrite : ({} : Sink).write (config.lines 0 t.collect.1).flatten =
      (none, ({} : Sink).append (config.lines 0 t.collect.1).flatten) :=
    Sink.write_of_capacity_none rfl _
  rw [writeTokens_of_taken hwrite]
  refine ⟨rfl, ?_⟩
  rw [Sink.toList_accepted_append, lines_eq_map_writtenTokens]
  rfl

theorem allowed_sublist (config : Config) (count : Nat) (tokens : List Token) :
    (config.allowed count tokens).Sublist tokens := by
  unfold allowed
  split
  · exact List.Sublist.refl tokens
  · exact List.take_sublist _ _

/-- What is written is what a text can give, or the end of the input. -/
theorem of_mem_writtenTokens (h : ∀ token ∈ tokens, token.OfText) {token : Token}
    (ht : token ∈ config.writtenTokens tokens) : token.OfText ∨ token = .endOfInput := by
  rcases List.mem_append.1 ht with ht | ht
  · exact Or.inl (h token ((config.allowed_sublist 0 tokens).subset ht))
  · split at ht
    · exact Or.inr (List.mem_singleton.1 ht)
    · exact absurd ht List.not_mem_nil

end Config

/-- A line tells its token. -/
theorem Token.isLine_lineBy {hidden : Char → Bool} {token : Token}
    (h : token.OfText ∨ token = .endOfInput) : IsLine (token.lineBy hidden) := by
  refine isLine_encodeUtf8 ?_
  rcases h with h | rfl
  · exact h.newline_not_mem
  · show '\n' ∉ "end of input".toList
    decide

theorem Token.lineBy_injective {hidden : Char → Bool} {token token' : Token}
    (h : token.Proper) (h' : token'.Proper) (he : token.lineBy hidden = token'.lineBy hidden) :
    token = token' := by
  have htext := List.append_cancel_right (encodeUtf8_injective he)
  exact textBy_injective h h' (String.toList_inj.1 htext)

namespace Config

variable {config : Config} {tokens : List Token} {hidden : Char → Bool}

theorem isLine_of_mem_map (h : ∀ token ∈ tokens, token.OfText) :
    ∀ line ∈ (config.writtenTokens tokens).map (Token.lineBy hidden), IsLine line := by
  intro line hline
  obtain ⟨token, ht, rfl⟩ := List.mem_map.1 hline
  exact Token.isLine_lineBy (of_mem_writtenTokens h ht)

theorem proper_of_mem_writtenTokens (h : ∀ token ∈ tokens, token.OfText) {token : Token}
    (ht : token ∈ config.writtenTokens tokens) : token.Proper := by
  rcases of_mem_writtenTokens h ht with hof | rfl
  · exact hof.proper
  · exact Token.endOfInput_proper

end Config

/-- Lists with the same images are the same where images tell elements apart. -/
theorem eq_of_map_eq {α β : Type} {f : α → β} {xs ys : List α}
    (hf : ∀ x ∈ xs, ∀ y ∈ ys, f x = f y → x = y) (h : xs.map f = ys.map f) : xs = ys := by
  induction xs generalizing ys with
  | nil => exact (List.map_eq_nil_iff.1 h.symm).symm
  | cons x xs ih =>
      cases ys with
      | nil => simp at h
      | cons y ys =>
          obtain ⟨hhead, htail⟩ := List.cons.inj h
          rw [hf x List.mem_cons_self y List.mem_cons_self hhead,
            ih (fun a ha b hb =>
              hf a (List.mem_cons_of_mem x ha) b (List.mem_cons_of_mem y hb)) htail]

/-- **The lines that are written tell the tokens.** -/
theorem Config.transcriptBy_injective {config : Config} {hidden : Char → Bool}
    {tokens tokens' : List Token} (h : ∀ token ∈ tokens, token.OfText)
    (h' : ∀ token ∈ tokens', token.OfText)
    (he : config.transcriptBy hidden tokens = config.transcriptBy hidden tokens') :
    config.writtenTokens tokens = config.writtenTokens tokens' := by
  have hmap := flatten_lines_injective (isLine_of_mem_map h) (isLine_of_mem_map h') he
  refine eq_of_map_eq ?_ hmap
  intro token ht token' ht'
  exact Token.lineBy_injective (proper_of_mem_writtenTokens h ht)
    (proper_of_mem_writtenTokens h' ht')

/-- **What is written in running text tells the tokens.**  Each token has a line, which ends with
its only line feed; and whichever characters have no picture, the same output of two inputs is that
of the same tokens, for no two tokens of any inputs have the same text. -/
theorem writeTokens_text (config : Config) (hformat : config.format = .text) {σ τ : Type}
    [CharSource σ] [CharSource τ] (t : Tokenizer σ) (u : Tokenizer τ) :
    (writeTokens config t {}).result = .ok (config.allowed 0 t.collect.1).length ∧
      (writeTokens config t {}).sink.accepted.toList =
        config.transcriptBy Unicode.isHidden t.collect.1 ∧
      ∀ hidden : Char → Bool,
        (∀ token ∈ config.writtenTokens t.collect.1, IsLine (token.lineBy hidden)) ∧
        (config.transcriptBy hidden t.collect.1).count lineFeed =
          (config.allowed 0 t.collect.1).length +
            (if config.reachesEnd 0 t.collect.1 && config.emitEndOfInput then 1 else 0) ∧
        (config.transcriptBy hidden t.collect.1 = config.transcriptBy hidden u.collect.1 ↔
          config.writtenTokens t.collect.1 = config.writtenTokens u.collect.1) ∧
        ∀ token ∈ t.collect.1, ∀ token' ∈ u.collect.1,
          token.textBy hidden = token'.textBy hidden ↔ token = token' := by
  have htokens := t.ofText_collect
  have htokens' := u.ofText_collect
  obtain ⟨hresult, haccepted⟩ := config.writeTokens_eq_writtenTokens t
  refine ⟨hresult, ?_, ?_⟩
  · have hline : Token.line .text = Token.lineBy Unicode.isHidden := funext Token.line_text_eq_lineBy
    rw [haccepted, hformat, hline]
    rfl
  · intro hidden
    refine ⟨?_, ?_, ?_, ?_⟩
    · intro token ht
      exact Token.isLine_lineBy (Config.of_mem_writtenTokens htokens ht)
    · rw [Config.transcriptBy, count_lineFeed_flatten (Config.isLine_of_mem_map htokens),
        List.length_map, Config.writtenTokens, List.length_append]
      split <;> rfl
    · constructor
      · exact Config.transcriptBy_injective htokens htokens'
      · intro he
        rw [Config.transcriptBy, he, Config.transcriptBy]
    · intro token ht token' ht'
      constructor
      · exact Token.textBy_injective (htokens token ht).proper (htokens' token' ht').proper
      · exact congrArg _

/-- A quote that is a symbol, with and without a blank before it: one output, and the same
tokens. -/
theorem writeTokens_text_of_quote :
    ({} : Config).format = .text ∧
      ({} : Config).transcriptBy Unicode.isHidden (Tokenizer.ofString "'").collect.1 =
        ({} : Config).transcriptBy Unicode.isHidden (Tokenizer.ofString " '").collect.1 ∧
      ({} : Config).writtenTokens (Tokenizer.ofString "'").collect.1 =
        ({} : Config).writtenTokens (Tokenizer.ofString " '").collect.1 := by
  have hsame : ({} : Config).transcriptBy Unicode.isHidden (Tokenizer.ofString "'").collect.1 =
      ({} : Config).transcriptBy Unicode.isHidden (Tokenizer.ofString " '").collect.1 := by
    decide +kernel
  obtain ⟨_, _, htext⟩ :=
    writeTokens_text {} rfl (Tokenizer.ofString "'") (Tokenizer.ofString " '")
  obtain ⟨_, _, htokens, _⟩ := htext Unicode.isHidden
  exact ⟨rfl, hsame, htokens.1 hsame⟩

end StreamLexer
