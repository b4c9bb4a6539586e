/-
**The lines of the tokens as data lose nothing.**

Each token is written as a JSON object with its kind and, except at the end of the input, its value.
The object is well formed and stands on one line, for no control character is written as it is; and
by the rules of JSON it is read as the members that were meant, whose values give the token back:
words, names and symbols as strings, finite numbers as numbers that round to the same value, and the
two infinities as strings.  So the lines of an output are read as the tokens that were written.

Main definitions:

* `StreamLexer.Token.HasValue` — the value of a token in its object;
* `StreamLexer.Token.object` — the object of a token;
* `StreamLexer.Token.ofJson?` — **the token of an object**;
* `StreamLexer.ReadsAs` — a line that is read as a token.

Main results:

* `StreamLexer.Token.exists_value` — what is written of a token is its object;
* `StreamLexer.Token.HasValue.ofJson?_object` — **whose members give the token back**;
* `StreamLexer.writeTokens_json` — **the lines of an output are read as the tokens that were
  written**, and as no others.
-/

import StreamLexer.Proofs.JsonText
import StreamLexer.Proofs.TokenText
import StreamLexer.Proofs.WordTable

set_option relaxedAutoImplicit false
set_option autoImplicit false

namespace StreamLexer

namespace Token

/-! ### The object of a token -/

/-- The name of a token's kind. -/
def kindName : Token → String
  | endOfInput => "end_of_input"
  | keyword _ => "keyword"
  | primitiveType _ => "primitive_type"
  | identifier _ => "identifier"
  | number _ => "number"
  | symbol _ => "symbol"

/-- **The value of a token**: the end of the input has none, and a number is a number unless it is
infinite. -/
inductive HasValue : Token → Option Json.Value → Prop
  | endOfInput : HasValue endOfInput none
  | keyword (k : Keyword) : HasValue (keyword k) (some (.string k.spelling.toList))
  | primitiveType (t : PrimitiveType) :
      HasValue (primitiveType t) (some (.string t.spelling.toList))
  | identifier (name : String) : HasValue (identifier name) (some (.string name.toList))
  | finite {x : Binary64} {l : Json.Literal} : x.isFinite = true → l.WellFormed →
      l.toBinary64 = x → HasValue (number x) (some (.number l))
  | infinite (negative : Bool) :
      HasValue (number (Binary64.infinity.withSign negative))
        (some (.string (if negative then "-inf" else "inf").toList))
  | symbol (c : Char) : HasValue (symbol c) (some (.string [c]))

/-- The object with a kind and perhaps a value. -/
def object (token : Token) (value : Option Json.Value) : Json.Value :=
  .object (("kind".toList, .string token.kindName.toList) ::
    value.toList.map fun v => ("value".toList, v))

/-! ### What an object gives back -/

/-- The token with the given kind and value. -/
def ofMembers? : String → Option Json.Value → Option Token
  | "end_of_input", none => some endOfInput
  | "keyword", some (.string cs) => (Keyword.lookup (String.ofList cs)).map keyword
  | "primitive_type", some (.string cs) =>
      (PrimitiveType.lookup (String.ofList cs)).map primitiveType
  | "identifier", some (.string cs) => some (identifier (String.ofList cs))
  | "number", some (.number l) => some (number l.toBinary64)
  | "number", some (.string cs) =>
      if cs = "inf".toList then some (number .infinity)
      else if cs = "-inf".toList then some (number (Binary64.infinity.withSign true))
      else none
  | "symbol", some (.string [c]) => some (symbol c)
  | _, _ => none

/-- **The token of an object.**  Members with other names are passed over. -/
def ofJson? : Json.Value → Option Token
  | .object members =>
      match members.lookup "kind".toList with
      | some (.string kind) =>
          ofMembers? (String.ofList kind) (members.lookup "value".toList)
      | _ => none
  | _ => none

theorem ofJson?_object (token : Token) (value : Option Json.Value) :
    ofJson? (token.object value) = ofMembers? token.kindName value := by
  cases value with
  | none => simp [ofJson?, object, List.lookup_cons]
  | some v => simp [ofJson?, object, List.lookup_cons]

/-- **The members give the token back.** -/
theorem HasValue.ofJson?_object {token : Token} {value : Option Json.Value}
    (h : token.HasValue value) : ofJson? (token.object value) = some token := by
  rw [Token.ofJson?_object]
  cases h with
  | endOfInput => rfl
  | keyword k =>
      show (Keyword.lookup (String.ofList k.spelling.toList)).map Token.keyword = _
      rw [String.ofList_toList, Keyword.lookup_eq_some_iff.2 rfl]
      rfl
  | primitiveType t =>
      show (PrimitiveType.lookup (String.ofList t.spelling.toList)).map Token.primitiveType = _
      rw [String.ofList_toList, PrimitiveType.lookup_eq_some_iff.2 rfl]
      rfl
  | identifier name =>
      show some (Token.identifier (String.ofList name.toList)) = _
      rw [String.ofList_toList]
  | finite _ _ hx =>
      rw [← hx]
      rfl
  | infinite negative => cases negative <;> rfl
  | symbol c => rfl

/-! ### What is written is the object -/

theorem toList_jsonMembers (kind value : String) :
    (jsonMembers kind value).toList = '\x7b' :: ((Json.quote "kind").toList ++ ':' ::
      ((Json.quote kind).toList ++ ',' :: ((Json.quote "value").toList ++ ':' ::
        (value.toList ++ ['\x7d'])))) := by
  have hkind : (Json.quote "kind").toList = "\"kind\"".toList := rfl
  have hvalue : (Json.quote "value").toList = "\"value\"".toList := rfl
  rw [hkind, hvalue]
  simp [jsonMembers]

theorem toList_json_endOfInput :
    endOfInput.json.toList = '\x7b' :: ((Json.quote "kind").toList ++ ':' ::
      ((Json.quote "end_of_input").toList ++ ['\x7d'])) := by
  have hkind : (Json.quote "kind").toList = "\"kind\"".toList := rfl
  rw [hkind]
  simp [json]

/-- **What is written of a value is read as its object.** -/
theorem isJson_jsonMembers (token : Token) {value : String} {v : Json.Value}
    (hv : Json.Reads (.value v) (value.toList ++ ['\x7d']) ['\x7d']) :
    Json.IsJson (jsonMembers token.kindName value).toList (token.object (some v)) := by
  rw [toList_jsonMembers]
  have hkind := Json.reads_quote token.kindName
    (',' :: ((Json.quote "value").toList ++ ':' :: (value.toList ++ ['\x7d'])))
  rw [← hv.skipBlanks_eq] at hv
  rw [← hkind.skipBlanks_eq] at hkind
  have hclose : Json.skipBlanks ['\x7d'] = ['\x7d'] := rfl
  have hmembers := Json.Reads.lastMember (Json.readsKey_quote "value" _) hv hclose
  exact ⟨[], .object (.member (Json.readsKey_quote "kind" _) hkind rfl hmembers), rfl⟩

theorem isJson_endOfInput : Json.IsJson endOfInput.json.toList (endOfInput.object none) := by
  rw [toList_json_endOfInput]
  have hkind := Json.reads_quote "end_of_input" ['\x7d']
  rw [← hkind.skipBlanks_eq] at hkind
  exact ⟨[], .object (.lastMember (Json.readsKey_quote "kind" _) hkind rfl), rfl⟩

theorem printable_jsonMembers {kind value : String} (h : Json.Printable value.toList) :
    Json.Printable (jsonMembers kind value).toList := by
  rw [toList_jsonMembers]
  simp [h]

theorem printable_endOfInput : Json.Printable endOfInput.json.toList := by
  rw [toList_json_endOfInput]
  simp

/-- A text as a value. -/
theorem isJson_quote (token : Token) (s : String) :
    Json.IsJson (jsonMembers token.kindName (Json.quote s)).toList
      (token.object (some (.string s.toList))) :=
  isJson_jsonMembers token (Json.reads_quote s ['\x7d'])

/-- A finite number as a value. -/
theorem isJson_literal {x : Binary64} {l : Json.Literal} (h : l.WellFormed)
    (htext : x.dataText.toList = l.text) :
    Json.IsJson (jsonMembers "number" x.dataText).toList
      ((number x).object (some (.number l))) := by
  have hends : Json.EndsNumber ['\x7d'] := by
    intro c hc
    obtain rfl : '\x7d' = c := Option.some.inj hc
    decide
  have hnumber := Json.Reads.number h hends
  rw [← htext] at hnumber
  exact isJson_jsonMembers (number x) hnumber

end Token

namespace Binary64

/-- What is neither finite nor no number is one of the two infinities. -/
theorem exists_eq_infinity {x : Binary64} (hnan : x.isNaN = false) (h : x.isFinite = false) :
    ∃ negative, x = infinity.withSign negative := by
  have hmagnitude : x.magnitude = infinityMagnitude := by
    simp only [isNaN, isFinite, decide_eq_false_iff_not] at hnan h
    omega
  obtain ⟨negative, magnitude, hlt⟩ := x
  obtain rfl : magnitude = infinityMagnitude := hmagnitude
  exact ⟨negative, rfl⟩

theorem text_infinity (negative : Bool) :
    (infinity.withSign negative).text = if negative then "-inf" else "inf" := by
  cases negative <;> rfl

end Binary64

namespace Token

variable {token : Token}

theorem json_number_of_finite {x : Binary64} (h : x.isFinite = true) :
    (number x).json = jsonMembers "number" x.dataText := by
  rw [json, numberJson, if_pos h]

theorem json_number_of_infinite {x : Binary64} (h : x.isFinite = false) :
    (number x).json = jsonMembers "number" (Json.quote x.text) := by
  rw [json, numberJson, if_neg (Bool.eq_false_iff.1 h)]

/-- **What is written of a token is its object**, without a control character. -/
theorem exists_value (h : token.Proper) :
    ∃ value, token.HasValue value ∧ Json.IsJson token.json.toList (token.object value) ∧
      Json.Printable token.json.toList := by
  cases token with
  | endOfInput => exact ⟨none, .endOfInput, isJson_endOfInput, printable_endOfInput⟩
  | keyword k =>
      exact ⟨_, .keyword k, isJson_quote (keyword k) k.spelling,
        printable_jsonMembers (Json.printable_quote k.spelling)⟩
  | primitiveType t =>
      exact ⟨_, .primitiveType t, isJson_quote (primitiveType t) t.spelling,
        printable_jsonMembers (Json.printable_quote t.spelling)⟩
  | identifier name =>
      exact ⟨_, .identifier name, isJson_quote (identifier name) name,
        printable_jsonMembers (Json.printable_quote name)⟩
  | number x =>
      cases hfinite : x.isFinite with
      | true =>
          obtain ⟨l, htext, hwell, hvalue⟩ := Binary64.exists_literal_dataText hfinite
          rw [json_number_of_finite hfinite]
          refine ⟨_, .finite hfinite hwell hvalue, isJson_literal hwell htext, ?_⟩
          refine printable_jsonMembers ?_
          rw [htext]
          exact hwell.printable_text
      | false =>
          obtain ⟨negative, rfl⟩ := Binary64.exists_eq_infinity (h x rfl) hfinite
          rw [json_number_of_infinite hfinite, Binary64.text_infinity]
          have hjson := isJson_quote (number (Binary64.infinity.withSign negative))
            (if negative then "-inf" else "inf")
          exact ⟨_, .infinite negative, hjson, printable_jsonMembers (Json.printable_quote _)⟩
  | symbol c =>
      have hvalue := isJson_quote (symbol c) (String.singleton c)
      rw [String.toList_singleton] at hvalue
      exact ⟨_, .symbol c, hvalue, printable_jsonMembers (Json.printable_quote _)⟩

end Token

/-! ### Lines -/

/-- **A line that is read as a token**: it is the encoding of a JSON text, and the value of the text
is the object of the token. -/
def ReadsAs (line : List UInt8) (token : Token) : Prop :=
  ∃ cs v, decodeUtf8? line = some cs ∧ Json.IsJson cs v ∧ Token.ofJson? v = some token

namespace Token

variable {token token' : Token}

theorem isLine_line_json (h : token.Proper) : IsLine (token.line .json) := by
  obtain ⟨_, _, _, hprintable⟩ := exists_value h
  refine isLine_encodeUtf8 ?_
  intro hmem
  exact absurd (hprintable _ hmem) (by decide)

theorem dropLast_line_json (token : Token) :
    (token.line .json).dropLast = encodeUtf8 token.json.toList := by
  rw [line_json]
  exact List.dropLast_concat

/-- **A token's line is read as the token**, and as no other. -/
theorem readsAs_line_iff (h : token.Proper) :
    ReadsAs (token.line .json).dropLast token' ↔ token' = token := by
  obtain ⟨value, hvalue, hjson, _⟩ := exists_value h
  rw [dropLast_line_json]
  constructor
  · rintro ⟨cs, v, hcs, hv, htoken⟩
    rw [decodeUtf8?_encodeUtf8] at hcs
    obtain rfl := Option.some.inj hcs
    rw [hv.unique hjson, hvalue.ofJson?_object] at htoken
    exact (Option.some.inj htoken).symm
  · rintro rfl
    exact ⟨_, _, decodeUtf8?_encodeUtf8 _, hjson, hvalue.ofJson?_object⟩

end Token

/-- **The lines of an output are read as the tokens that were written.** -/
theorem forall₂_readsAs_iff {tokens tokens' : List Token} (h : ∀ token ∈ tokens, token.Proper) :
    List.Forall₂ ReadsAs (splitLines (tokens.map (Token.line .json)).flatten) tokens' ↔
      tokens' = tokens := by
  have hlines : ∀ line ∈ tokens.map (Token.line .json), IsLine line := by
    intro line hline
    obtain ⟨token, ht, rfl⟩ := List.mem_map.1 hline
    exact Token.isLine_line_json (h token ht)
  rw [splitLines_flatten hlines, List.map_map]
  clear hlines
  induction tokens generalizing tokens' with
  | nil => simp
  | cons token tokens ih =>
      have hhead : ∀ token', ReadsAs (token.line .json).dropLast token' ↔ token' = token :=
        fun _ => Token.readsAs_line_iff (h token List.mem_cons_self)
      have htail : ∀ tokens', List.Forall₂ ReadsAs
          (tokens.map (List.dropLast ∘ Token.line .json)) tokens' ↔ tokens' = tokens :=
        fun _ => ih fun t ht => h t (List.mem_cons_of_mem _ ht)
      simp only [List.map_cons, List.forall₂_cons_left_iff, Function.comp_apply, hhead, htail]
      constructor
      · rintro ⟨_, _, rfl, rfl, rfl⟩
        rfl
      · rintro rfl
        exact ⟨token, tokens, rfl, rfl, rfl⟩

/-- **Data lines lose nothing.**  What is written of a token has no control character in it and is
one JSON object, with the kind and the value of the token, which gives the token back.  So the lines
that some tokens make up are read as these tokens and as no others, and that holds of the lines
which are written for an input. -/
theorem writeTokens_json :
    (∀ token : Token, token.Proper →
      (∀ c ∈ token.json.toList, 0x20 ≤ c.toNat) ∧
      ∃ value, token.HasValue value ∧
        (∀ v, Json.IsJson token.json.toList v ↔ v = token.object value) ∧
        Token.ofJson? (token.object value) = some token) ∧
    (∀ tokens : List Token, (∀ token ∈ tokens, token.Proper) → ∀ tokens',
      List.Forall₂ ReadsAs (splitLines (tokens.map (Token.line .json)).flatten) tokens' ↔
        tokens' = tokens) ∧
    ∀ config : Config, config.format = .json → ∀ (σ : Type) [CharSource σ] (t : Tokenizer σ),
      (writeTokens config t {}).result = .ok (config.allowed 0 t.collect.1).length ∧
      (writeTokens config t {}).sink.accepted.toList =
        ((config.writtenTokens t.collect.1).map (Token.line .json)).flatten ∧
      ∀ tokens',
        List.Forall₂ ReadsAs (splitLines (writeTokens config t {}).sink.accepted.toList) tokens' ↔
          tokens' = config.writtenTokens t.collect.1 := by
  refine ⟨?_, fun tokens h tokens' => forall₂_readsAs_iff h, ?_⟩
  · intro token h
    obtain ⟨value, hvalue, hjson, hprintable⟩ := Token.exists_value h
    refine ⟨hprintable, value, hvalue, ?_, hvalue.ofJson?_object⟩
    intro v
    constructor
    · intro hv
      exact hv.unique hjson
    · rintro rfl
      exact hjson
  · intro config hformat σ _ t
    obtain ⟨hresult, haccepted⟩ := config.writeTokens_eq_writtenTokens t
    rw [hformat] at haccepted
    have hproper : ∀ token ∈ config.writtenTokens t.collect.1, token.Proper :=
      fun token ht => Config.proper_of_mem_writtenTokens t.ofText_collect ht
    refine ⟨hresult, haccepted, ?_⟩
    intro tokens'
    rw [haccepted]
    exact forall₂_readsAs_iff hproper

/-- A quote that is a symbol, which takes a backslash in its line, and its end of the input. -/
theorem writeTokens_json_of_quote :
    (Token.symbol '"').Proper ∧ ({ format := .json } : Config).format = .json ∧
      (∃ value, (Token.symbol '"').HasValue value ∧
        Token.ofJson? ((Token.symbol '"').object value) = some (.symbol '"')) ∧
      List.Forall₂ ReadsAs (splitLines ([Token.symbol '"'].map (Token.line .json)).flatten)
        [.symbol '"'] ∧
      List.Forall₂ ReadsAs
        (splitLines
          (writeTokens { format := .json } (Tokenizer.ofString "\"") {}).sink.accepted.toList)
        [.symbol '"', .endOfInput] := by
  have hproper : (Token.symbol '"').Proper := nofun
  have htokens : ∀ token ∈ [Token.symbol '"'], token.Proper := by
    intro token ht
    rwa [List.mem_singleton.1 ht]
  have hwritten : [.symbol '"', .endOfInput] = ({ format := .json } : Config).writtenTokens
      (Tokenizer.ofString "\"").collect.1 := by
    decide +kernel
  obtain ⟨hobject, hlines, hrun⟩ := writeTokens_json
  obtain ⟨_, value, hvalue, _, hback⟩ := hobject (.symbol '"') hproper
  obtain ⟨_, _, hread⟩ := hrun { format := .json } rfl TextCursor (Tokenizer.ofString "\"")
  exact ⟨hproper, rfl, ⟨value, hvalue, hback⟩, (hlines _ htokens _).2 rfl, (hread _).2 hwritten⟩

end StreamLexer
