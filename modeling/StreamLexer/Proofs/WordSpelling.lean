/-
**One spelling for every use of a word.**

A reserved word, or the name of a primitive type, is searched for in a table, read by itself, shown
in running text and written as data.  Each of these has its spellings from the same rule, the name
under which a word is declared in lower case unless a spelling is given, but text and data are given
theirs separately.  All of them agree, on every text; no text is a word of both sets; so what a word
stands for does not depend on which of the tables is consulted first.

Main definitions:

* `StreamLexer.spellingOf` — **the rule of spelling**;
* `StreamLexer.Keyword.shown`, `StreamLexer.Keyword.written`, `StreamLexer.PrimitiveType.shown`,
  `StreamLexer.PrimitiveType.written` — the spellings in running text and in data by that rule;
* `StreamLexer.Apart` — tables without a text in common;
* `StreamLexer.Token.ofWordIn` — what a word stands for by tables consulted in a given order.

Main results:

* `StreamLexer.Keyword.ofString?_eq_some_iff`, `StreamLexer.PrimitiveType.ofString?_eq_some_iff` —
  a word is read from its spelling and from nothing else;
* `StreamLexer.tfae_of_spelling` — the uses of a word agree where their spellings do;
* `StreamLexer.findSome?_perm` — **tables without a text in common may be consulted in any order**;
* `StreamLexer.words_spelled_alike` — the laws of the two sets of words, with the scanner.
-/

import StreamLexer.Proofs.JsonText
import StreamLexer.Proofs.Lookahead
import Mathlib.Tactic.TFAE

set_option relaxedAutoImplicit false
set_option autoImplicit false

namespace StreamLexer

/-! ### The rule of spelling -/

/-- A name in lower case. -/
def inLowerCase (name : String) : String := String.ofList (name.toList.map Char.toLower)

/-- **The rule of spelling**: a word declared as `name` has the spelling that is given for it, and
without one its name in lower case. -/
def spellingOf (name : String) (given? : Option String) : String := given?.getD (inLowerCase name)

namespace Keyword

/-- The name under which a reserved word is declared. -/
def declaredName : Keyword → String
  | .asKw => "As"
  | .asyncKw => "Async"
  | .awaitKw => "Await"
  | .breakKw => "Break"
  | .constKw => "Const"
  | .continueKw => "Continue"
  | .crateKw => "Crate"
  | .dynKw => "Dyn"
  | .elseKw => "Else"
  | .enumKw => "Enum"
  | .externKw => "Extern"
  | .falseKw => "False"
  | .fnKw => "Fn"
  | .forKw => "For"
  | .ifKw => "If"
  | .implKw => "Impl"
  | .inKw => "In"
  | .letKw => "Let"
  | .loopKw => "Loop"
  | .matchKw => "Match"
  | .modKw => "Mod"
  | .moveKw => "Move"
  | .mutKw => "Mut"
  | .pubKw => "Pub"
  | .refKw => "Ref"
  | .returnKw => "Return"
  | .selfType => "SelfType"
  | .selfValue => "SelfValue"
  | .staticKw => "Static"
  | .structKw => "Struct"
  | .superKw => "Super"
  | .traitKw => "Trait"
  | .trueKw => "True"
  | .typeKw => "Type"
  | .unsafeKw => "Unsafe"
  | .useKw => "Use"
  | .whereKw => "Where"
  | .whileKw => "While"

/-- The spellings that are given for running text. -/
def shownAs? : Keyword → Option String
  | .selfType => some "Self"
  | .selfValue => some "self"
  | _ => none

/-- The spellings that are given for data. -/
def writtenAs? : Keyword → Option String
  | .selfType => some "Self"
  | .selfValue => some "self"
  | _ => none

/-- A reserved word in running text. -/
def shown (k : Keyword) : String := spellingOf k.declaredName k.shownAs?

/-- A reserved word in data. -/
def written (k : Keyword) : String := spellingOf k.declaredName k.writtenAs?

theorem shown_eq_spelling (k : Keyword) : k.shown = k.spelling := by
  cases k <;> decide

theorem written_eq_spelling (k : Keyword) : k.written = k.spelling := by
  cases k <;> decide

/-- **A reserved word is read from its spelling and from nothing else.** -/
theorem ofString?_eq_some_iff {w : String} {k : Keyword} :
    ofString? w = some k ↔ k.spelling = w := by
  constructor
  · intro h
    unfold ofString? at h
    split at h <;> cases h <;> rfl
  · rintro rfl
    exact ofString?_spelling k

end Keyword

namespace PrimitiveType

/-- The name under which a primitive type is declared. -/
def declaredName : PrimitiveType → String
  | .array => "Array"
  | .bool => "Bool"
  | .char => "Char"
  | .f32 => "F32"
  | .f64 => "F64"
  | .i8 => "I8"
  | .i16 => "I16"
  | .i32 => "I32"
  | .i64 => "I64"
  | .i128 => "I128"
  | .isize => "Isize"
  | .pointer => "Pointer"
  | .reference => "Reference"
  | .slice => "Slice"
  | .str => "Str"
  | .tuple => "Tuple"
  | .u8 => "U8"
  | .u16 => "U16"
  | .u32 => "U32"
  | .u64 => "U64"
  | .u128 => "U128"
  | .unit => "Unit"
  | .usize => "Usize"

/-- A primitive type in running text: no spelling is given for one. -/
def shown (t : PrimitiveType) : String := spellingOf t.declaredName none

/-- A primitive type in data: no spelling is given for one there either. -/
def written (t : PrimitiveType) : String := spellingOf t.declaredName none

theorem shown_eq_spelling (t : PrimitiveType) : t.shown = t.spelling := by
  cases t <;> decide

theorem written_eq_spelling (t : PrimitiveType) : t.written = t.spelling := by
  cases t <;> decide

/-- **A primitive type is read from its spelling and from nothing else.** -/
theorem ofString?_eq_some_iff {w : String} {t : PrimitiveType} :
    ofString? w = some t ↔ t.spelling = w := by
  constructor
  · intro h
    unfold ofString? at h
    split at h <;> cases h <;> rfl
  · rintro rfl
    exact ofString?_spelling t

end PrimitiveType

/-! ### The uses of a word -/

/-- **A JSON string is read as the text that it was written for**, and as no other. -/
theorem Json.isJson_quote_iff {s w : String} :
    IsJson (quote s).toList (.string w.toList) ↔ s = w := by
  have hread : IsJson (quote s).toList (.string s.toList) := by
    have hreads := reads_quote s []
    rw [List.append_nil] at hreads
    exact ⟨[], by rwa [hreads.skipBlanks_eq], rfl⟩
  constructor
  · intro h
    exact String.toList_inj.1 (Value.string.inj (hread.unique h))
  · rintro rfl
    exact hread

theorem Json.quote_inj {s w : String} : quote s = quote w ↔ s = w := by
  constructor
  · intro h
    have hread : IsJson (quote s).toList (.string w.toList) := by
      rw [h]
      exact isJson_quote_iff.2 rfl
    exact isJson_quote_iff.1 hread
  · exact congrArg quote

/-- **The uses of a word agree where their spellings do**: a text finds `a` in the table, is read as
`a`, is how `a` is spelled and shown, and is the text of the JSON string of `a`, all or none. -/
theorem tfae_of_spelling {α : Type} [ToString α] {lookup ofString? : String → Option α}
    {spelling shown written : α → String}
    (hlookup : ∀ {w a}, lookup w = some a ↔ spelling a = w)
    (hread : ∀ {w a}, ofString? w = some a ↔ spelling a = w)
    (htoString : ∀ a : α, toString a = spelling a)
    (hshown : ∀ a, shown a = spelling a) (hwritten : ∀ a, written a = spelling a)
    (w : String) (a : α) :
    List.TFAE [lookup w = some a, ofString? w = some a, spelling a = w, toString a = w, shown a = w,
      Json.quote (written a) = Json.quote w,
      Json.IsJson (Json.quote (written a)).toList (.string w.toList)] := by
  tfae_have 1 ↔ 3 := hlookup
  tfae_have 2 ↔ 3 := hread
  tfae_have 4 ↔ 3 := by rw [htoString]
  tfae_have 5 ↔ 3 := by rw [hshown]
  tfae_have 6 ↔ 3 := by rw [hwritten, Json.quote_inj]
  tfae_have 7 ↔ 3 := by rw [hwritten, Json.isJson_quote_iff]
  tfae_finish

/-! ### The order of the tables -/

/-- Two tables have no text in common. -/
def Apart {β : Type} (table table' : String → Option β) : Prop :=
  ∀ w, table w = none ∨ table' w = none

namespace Apart

variable {β : Type} {tables : List (String → Option β)}

theorem symm {table table' : String → Option β} (h : Apart table table') : Apart table' table :=
  fun w => (h w).symm

/-- Where no text is in two tables, the first table that has a text is the only one. -/
theorem findSome?_eq_some_iff (h : tables.Pairwise Apart) {w : String} {b : β} :
    tables.findSome? (fun table => table w) = some b ↔ ∃ table ∈ tables, table w = some b := by
  induction tables with
  | nil => simp
  | cons first tables ih =>
      obtain ⟨hfirst, hrest⟩ := List.pairwise_cons.1 h
      cases hw : first w with
      | none => simp [hw, ih hrest]
      | some b' =>
          simp only [List.findSome?_cons, hw, List.mem_cons, Option.some.injEq]
          constructor
          · rintro rfl
            exact ⟨first, Or.inl rfl, hw⟩
          · rintro ⟨table, rfl | hmem, hb⟩
            · exact Option.some.inj (hw.symm.trans hb)
            · rcases hfirst table hmem w with hnone | hnone
              · rw [hw] at hnone
                cases hnone
              · rw [hb] at hnone
                cases hnone

end Apart

/-- **Tables without a text in common may be consulted in any order.** -/
theorem findSome?_perm {β : Type} {tables tables' : List (String → Option β)}
    (h : tables.Perm tables') (hapart : tables.Pairwise Apart) (w : String) :
    tables.findSome? (fun table => table w) = tables'.findSome? (fun table => table w) := by
  have hapart' : tables'.Pairwise Apart := h.pairwise hapart Apart.symm
  refine Option.ext fun b => ?_
  rw [Apart.findSome?_eq_some_iff hapart, Apart.findSome?_eq_some_iff hapart']
  simp only [h.mem_iff]

/-- **A reserved word is not the name of a primitive type**, as the tables have it. -/
theorem lookup_eq_none_or (w : String) :
    Keyword.lookup w = none ∨ PrimitiveType.lookup w = none := by
  cases hk : Keyword.lookup w with
  | none => exact Or.inl rfl
  | some k =>
      refine Or.inr (Option.eq_none_iff_forall_ne_some.2 fun t ht => ?_)
      have hword := Keyword.lookup_eq_some_iff.1 hk
      exact k.spelling_ne t (hword.trans (PrimitiveType.lookup_eq_some_iff.1 ht).symm)

namespace Token

/-- The table of the reserved words. -/
def keywordTable (w : String) : Option Token := (Keyword.lookup w).map keyword

/-- The table of the primitive types. -/
def primitiveTypeTable (w : String) : Option Token := (PrimitiveType.lookup w).map primitiveType

/-- **What a word stands for by some tables**: the first that has the word tells, and without one it
is an identifier. -/
def ofWordIn (tables : List (String → Option Token)) (w : String) : Token :=
  (tables.findSome? fun table => table w).getD (identifier w)

theorem apart_tables : [keywordTable, primitiveTypeTable].Pairwise Apart := by
  refine List.pairwise_pair.2 fun w => ?_
  rcases lookup_eq_none_or w with hnone | hnone
  · exact Or.inl (by rw [keywordTable, hnone]; rfl)
  · exact Or.inr (by rw [primitiveTypeTable, hnone]; rfl)

/-- A word is looked up among the reserved words first. -/
theorem ofWordIn_keywordTable_primitiveTypeTable (cs : List Char) :
    ofWordIn [keywordTable, primitiveTypeTable] (String.ofList cs) = ofWord cs := by
  unfold ofWordIn ofWord
  simp only [List.findSome?_cons, List.findSome?_nil, keywordTable, primitiveTypeTable]
  cases Keyword.lookup (String.ofList cs) with
  | some k => rfl
  | none =>
      cases PrimitiveType.lookup (String.ofList cs) with
      | some t => rfl
      | none => rfl

/-- **In any order the tables tell the same of a word.** -/
theorem ofWordIn_of_perm {tables : List (String → Option Token)}
    (h : tables.Perm [keywordTable, primitiveTypeTable]) (cs : List Char) :
    ofWordIn tables (String.ofList cs) = ofWord cs := by
  rw [← ofWordIn_keywordTable_primitiveTypeTable, ofWordIn, ofWordIn,
    findSome?_perm h.symm apart_tables]

/-- A word stands for a reserved word, a primitive type, or itself. -/
theorem ofWord_cases (cs : List Char) :
    (∃ k, ofWord cs = keyword k) ∨ (∃ t, ofWord cs = primitiveType t) ∨
      ofWord cs = identifier (String.ofList cs) := by
  unfold ofWord
  dsimp only
  split
  · next k _ => exact Or.inl ⟨k, rfl⟩
  · split
    · next t _ => exact Or.inr (Or.inl ⟨t, rfl⟩)
    · exact Or.inr (Or.inr rfl)

end Token

/-! ### Words in a text -/

/-- **A call that begins before a word** returns what the word stands for, and leaves what
follows. -/
theorem Tokenizer.nextToken_word {σ : Type} [CharSource σ] {t : Tokenizer σ} {c : Char}
    {cs rest : List Char} (hc : Grammar.Letter c) (hcs : ∀ d ∈ cs, Grammar.WordPart d)
    (hrest : ∀ d ∈ rest.head?, ¬ Grammar.WordPart d) (ht : t.unread = c :: cs ++ rest) :
    t.nextToken.1 = .ofWord (c :: cs) ∧ t.nextToken.2.unread = rest := by
  have hfits : Segment.FitsBefore rest ⟨.word, c :: cs⟩ := .word hc hcs hrest
  obtain ⟨token, t', hnext, hdenotes, ht'⟩ := hfits.nextToken_lexeme rfl ht
  rw [hnext]
  exact ⟨hdenotes.unique (Segment.denotes_ofWord _), ht'⟩

/-- **The two sets of words are told apart by their spellings, on every path.**  For each set, a text
finds a word in the table just when it is read as the word, is its spelling, is what is shown for
it, and has the JSON string that is written for it.  No text is in both tables.  So of a word in a
text a call returns what the tables tell in any order, a reserved word, a primitive type or an
identifier, and it is the one token that the word stands for. -/
theorem words_spelled_alike :
    (∀ (w : String) (k : Keyword), List.TFAE [Keyword.lookup w = some k,
      Keyword.ofString? w = some k, k.spelling = w, toString k = w, k.shown = w,
      Json.quote k.written = Json.quote w,
      Json.IsJson (Json.quote k.written).toList (.string w.toList)]) ∧
    (∀ (w : String) (p : PrimitiveType), List.TFAE [PrimitiveType.lookup w = some p,
      PrimitiveType.ofString? w = some p, p.spelling = w, toString p = w, p.shown = w,
      Json.quote p.written = Json.quote w,
      Json.IsJson (Json.quote p.written).toList (.string w.toList)]) ∧
    (∀ (w : String) (k : Keyword) (p : PrimitiveType),
      ¬ (Keyword.lookup w = some k ∧ PrimitiveType.lookup w = some p)) ∧
    ∀ {σ : Type} [CharSource σ] (t : Tokenizer σ) (c : Char) (cs rest : List Char),
      Grammar.Letter c → (∀ d ∈ cs, Grammar.WordPart d) →
      (∀ d ∈ rest.head?, ¬ Grammar.WordPart d) → t.unread = c :: cs ++ rest →
      t.nextToken.2.unread = rest ∧
        (∀ tables, tables.Perm [Token.keywordTable, Token.primitiveTypeTable] →
          t.nextToken.1 = Token.ofWordIn tables (String.ofList (c :: cs))) ∧
        ((∃ k, t.nextToken.1 = .keyword k) ∨ (∃ p, t.nextToken.1 = .primitiveType p) ∨
          t.nextToken.1 = .identifier (String.ofList (c :: cs))) ∧
        ∀ token, Segment.Denotes ⟨.word, c :: cs⟩ token ↔ token = t.nextToken.1 := by
  refine ⟨?_, ?_, ?_, ?_⟩
  · exact tfae_of_spelling Keyword.lookup_eq_some_iff Keyword.ofString?_eq_some_iff
      (fun _ => rfl) Keyword.shown_eq_spelling Keyword.written_eq_spelling
  · exact tfae_of_spelling PrimitiveType.lookup_eq_some_iff PrimitiveType.ofString?_eq_some_iff
      (fun _ => rfl) PrimitiveType.shown_eq_spelling PrimitiveType.written_eq_spelling
  · rintro w k p ⟨hk, hp⟩
    rcases lookup_eq_none_or w with hnone | hnone
    · rw [hk] at hnone
      cases hnone
    · rw [hp] at hnone
      cases hnone
  · intro σ _ t c cs rest hc hcs hrest ht
    obtain ⟨htoken, hunread⟩ := Tokenizer.nextToken_word hc hcs hrest ht
    rw [htoken]
    refine ⟨hunread, fun tables h => (Token.ofWordIn_of_perm h _).symm, Token.ofWord_cases _, ?_⟩
    intro token
    constructor
    · exact fun h => h.unique (Segment.denotes_ofWord _)
    · rintro rfl
      exact Segment.denotes_ofWord _

/-- `Self` is a reserved word and is written as it is spelled; another case is no word of the table.
Before a parenthesis it is the whole word. -/
theorem words_spelled_alike_at_self :
    Grammar.Letter 'S' ∧ (∀ d ∈ ['e', 'l', 'f'], Grammar.WordPart d) ∧
      (∀ d ∈ ['(', ')'].head?, ¬ Grammar.WordPart d) ∧
      Json.IsJson (Json.quote Keyword.selfType.written).toList (.string "Self".toList) ∧
      Keyword.lookup "SELF" ≠ some .selfType ∧
      (Tokenizer.mk (TextCursor.ofString "elf()") (some 'S')).nextToken.1 = .keyword .selfType ∧
      (Tokenizer.mk (TextCursor.ofString "elf()") (some 'S')).nextToken.2.unread = ['(', ')'] := by
  obtain ⟨hkeywords, _, _, hscan⟩ := words_spelled_alike
  have hletter : Grammar.Letter 'S' := by decide
  have hparts : ∀ d ∈ ['e', 'l', 'f'], Grammar.WordPart d := by
    simp [Grammar.WordPart, Grammar.Letter]
  have hstop : ∀ d ∈ ['(', ')'].head?, ¬ Grammar.WordPart d := by
    simp [Grammar.WordPart, Grammar.Letter, Grammar.Digit]
  have hunread : (Tokenizer.mk (TextCursor.ofString "elf()") (some 'S')).unread =
      'S' :: ['e', 'l', 'f'] ++ ['(', ')'] :=
    congrArg ('S' :: ·) (TextCursor.readAll_fst (.ofString "elf()"))
  obtain ⟨hrest, _, _, hdenotes⟩ :=
    hscan _ 'S' ['e', 'l', 'f'] ['(', ')'] hletter hparts hstop hunread
  have hself : Keyword.lookup "Self" = some .selfType ↔
      Json.IsJson (Json.quote Keyword.selfType.written).toList (.string "Self".toList) :=
    (hkeywords "Self" .selfType).out 0 6
  have hother : Keyword.lookup "SELF" = some .selfType ↔ Keyword.selfType.spelling = "SELF" :=
    (hkeywords "SELF" .selfType).out 0 2
  refine ⟨hletter, hparts, hstop, hself.1 (by decide), ?_, ?_, hrest⟩
  · exact mt hother.1 (by decide)
  · exact ((hdenotes _).1 (.keyword rfl)).symm

end StreamLexer
