/-
**The scanner follows the lexical grammar.**

The grammar of `StreamLexer/Proofs/Grammar.lean` says how a text falls into segments and makes no
mention of how one reads; the scanner of `StreamLexer/Scan.lean` reads one character after another
and knows no segments.  Scanning from rest, each segment is used up as a whole: the scanner accepts
its characters, and what follows leaves it at rest again, with the token of the segment completed
if it has one.

Main definitions:

* `StreamLexer.Segment.tokens` — what the scanner makes of a segment;
* `StreamLexer.Segment.Reaches` — the state to which a segment takes the scanner;
* `StreamLexer.Segment.Denotes` — **the token that a word, a number or a symbol stands for**, a
  word by the spellings of the reserved words and of the primitive types.

Main results:

* `StreamLexer.Segment.FitsBefore.exists_reaches`, `StreamLexer.Segment.FitsBefore.tokens_append` —
  scanning over one segment;
* `StreamLexer.Segmentation.tokens_eq` — the tokens of a text are those of its segments;
* `StreamLexer.tokenize_iff_denotes` — **the tokens of a text are the images of its words, numbers
  and symbols, in the one way in which it falls into segments**.
-/

import StreamLexer.Proofs.CommentText
import StreamLexer.Proofs.TextScan
import StreamLexer.Proofs.WordTable
import Mathlib.Data.List.Forall2

set_option relaxedAutoImplicit false
set_option autoImplicit false

namespace StreamLexer

open Grammar

/-! ### The classes of characters -/

theorem isBlank_iff {c : Char} : CharClass.isBlank c = true ↔ Whitespace c := by
  simp [CharClass.isBlank, Whitespace, or_assoc]

theorem isUpper_iff {c : Char} : c.isUpper = true ↔ 'A' ≤ c ∧ c ≤ 'Z' := decide_eq_true_iff

theorem isLower_iff {c : Char} : c.isLower = true ↔ 'a' ≤ c ∧ c ≤ 'z' := by
  show (decide ('a'.val ≤ c.val) && decide (c.val ≤ 'z'.val)) = true ↔ _
  rw [Bool.and_eq_true, decide_eq_true_eq, decide_eq_true_eq]
  exact Iff.rfl

theorem isWordStart_iff {c : Char} : CharClass.isWordStart c = true ↔ Letter c := by
  show (c.isUpper || c.isLower) = true ↔ _
  rw [Bool.or_eq_true, isUpper_iff, isLower_iff]
  exact or_comm

theorem isDigit_iff {c : Char} : c.isDigit = true ↔ Digit c := by
  simp only [Char.isDigit, Bool.and_eq_true, decide_eq_true_eq, Digit, Char.le_def]

theorem isWordPart_iff {c : Char} : CharClass.isWordPart c = true ↔ WordPart c := by
  rw [CharClass.isWordPart, Char.isAlphanum, Bool.or_eq_true, isDigit_iff]
  exact or_congr isWordStart_iff Iff.rfl

theorem isNumberPart_iff {c : Char} : CharClass.isNumberPart c = true ↔ NumberPart c := by
  simp only [CharClass.isNumberPart, Bool.or_eq_true, isDigit_iff, decide_eq_true_eq, NumberPart]

namespace Scan

/-! ### From rest into a segment -/

theorem enter_whitespace {c : Char} (h : Whitespace c) : enter c = start := by
  rw [enter, if_pos (isBlank_iff.2 h)]

theorem enter_letter {c : Char} (h : Letter c) : enter c = word [c] := by
  have hw : ¬ CharClass.isBlank c = true := fun hb => (isBlank_iff.1 hb).not_letter h
  rw [enter, if_neg hw, if_pos (isWordStart_iff.2 h)]

theorem enter_numberPart {c : Char} (h : NumberPart c) : enter c = number [c] := by
  have hw : ¬ CharClass.isBlank c = true := fun hb => (isBlank_iff.1 hb).not_numberPart h
  have hl : ¬ CharClass.isWordStart c = true := fun hs => (isWordStart_iff.1 hs).not_numberPart h
  rw [enter, if_neg hw, if_neg hl, if_pos (isNumberPart_iff.2 h)]

@[simp] theorem enter_slash : enter '/' = slash := by decide

theorem enter_other {c : Char} (hw : ¬ Whitespace c) (hl : ¬ Letter c) (hn : ¬ NumberPart c)
    (hs : c ≠ '/') : enter c = symbol c := by
  rw [enter, if_neg (mt isBlank_iff.1 hw), if_neg (mt isWordStart_iff.1 hl),
    if_neg (mt isNumberPart_iff.1 hn), if_neg hs]

/-! ### Through a segment -/

/-- A state that holds what has been read, last first, takes in a run of the characters that it
accepts. -/
theorem foldlM_step_run {state : List Char → Scan} {P : Char → Prop}
    (hstep : ∀ c, P c → ∀ read, step (state read) c = some (state (c :: read))) {cs : List Char}
    (h : ∀ d ∈ cs, P d) (read : List Char) :
    cs.foldlM step (state read) = some (state (cs.reverse ++ read)) := by
  induction cs generalizing read with
  | nil => rfl
  | cons c cs ih =>
      rw [List.foldlM_cons, hstep c (h c List.mem_cons_self)]
      simpa using ih (fun d hd => h d (List.mem_cons_of_mem c hd)) (c :: read)

theorem step_word {c : Char} (h : WordPart c) (read : List Char) :
    step (word read) c = some (word (c :: read)) := by
  rw [step, if_pos (isWordPart_iff.2 h)]

theorem step_number {c : Char} (h : NumberPart c) (read : List Char) :
    step (number read) c = some (number (c :: read)) := by
  rw [step, if_pos (isNumberPart_iff.2 h)]

theorem foldlM_step_comment {cs : List Char} {k k' : Comment}
    (h : cs.foldlM Comment.step k = some k') :
    cs.foldlM step (comment k) = some (comment k') := by
  induction cs generalizing k with
  | nil => rw [Option.some_inj.1 h]; rfl
  | cons c cs ih =>
      obtain ⟨k₁, hk₁, hcs⟩ := Option.bind_eq_some_iff.1 h
      rw [List.foldlM_cons, step, hk₁]
      exact ih hcs

/-- A comment that goes on through a text and is closed by the next character leaves the scanner
at rest. -/
theorem foldlM_step_comment_closed {cs : List Char} {k k' : Comment} {c : Char}
    (h : cs.foldlM Comment.step k = some k') (hc : k'.step c = none) :
    (cs ++ [c]).foldlM step (comment k) = some start := by
  rw [List.foldlM_append, foldlM_step_comment h]
  simp [step, hc]

theorem foldlM_step_slash_slash (cs : List Char) :
    ('/' :: '/' :: cs).foldlM step start = cs.foldlM step (comment .line) := by
  rw [List.foldlM_cons, step, enter_slash]
  rfl

theorem foldlM_step_slash_star (cs : List Char) :
    ('/' :: '*' :: cs).foldlM step start = cs.foldlM step (comment .openBlock) := by
  rw [List.foldlM_cons, step, enter_slash]
  rfl

end Scan

/-! ### Over a segment -/

namespace Segment

open Scan

/-- What the scanner makes of a segment: nothing of whitespace and comments, else one token. -/
def tokens (seg : Segment) : List Token :=
  match seg.kind with
  | .whitespace | .lineComment | .blockComment => []
  | .word => [.ofWord seg.text]
  | .number => [.ofNumber seg.text]
  | .symbol => seg.text.map .symbol

/-- A block comment that is left open. -/
def IsOpenBlock (seg : Segment) : Prop :=
  ∃ body, seg = ⟨.blockComment, '/' :: '*' :: body⟩ ∧ ¬ blockEnd <:+: body

/-- The state to which a segment takes the scanner from rest: it has the token of the segment, and
unless it is the state of rest it refuses what follows. -/
structure Reaches (seg : Segment) (rest : List Char) (state : Scan) : Prop where
  foldlM_step : seg.text.foldlM step start = some state
  completed : state.completed = seg.tokens
  stops : state = start ∨ ∀ c ∈ rest.head?, state.step c = none
  isOpenBlock_iff : (∃ afterStar, state = .comment (.block afterStar)) ↔ seg.IsOpenBlock

/-- **Every segment takes the scanner from rest to a state** that has its token and, unless it is the
state of rest, refuses what follows. -/
theorem FitsBefore.exists_reaches {seg : Segment} {rest : List Char} (h : seg.FitsBefore rest) :
    ∃ state, seg.Reaches rest state := by
  cases h with
  | @whitespace c hc =>
      exact ⟨start, by simp [step, enter_whitespace hc], rfl, Or.inl rfl, by simp [IsOpenBlock]⟩
  | @lineComment body e hbody he =>
      refine ⟨start, ?_, rfl, Or.inl rfl, by simp [IsOpenBlock]⟩
      rw [foldlM_step_slash_slash]
      exact foldlM_step_comment_closed (Comment.foldlM_step_line hbody)
        (Comment.step_line_of_lineEnd he)
  | @openLineComment body hbody hrest =>
      refine ⟨.comment .line, ?_, rfl, Or.inr (by simp [hrest]), by simp [IsOpenBlock]⟩
      rw [foldlM_step_slash_slash]
      exact foldlM_step_comment (Comment.foldlM_step_line hbody)
  | @blockComment body before hfirst =>
      refine ⟨start, ?_, rfl, Or.inl rfl, by simp [IsOpenBlock, hfirst.infix]⟩
      obtain ⟨rfl, hopen⟩ := Comment.foldlM_step_before_close hfirst
      rw [foldlM_step_slash_star]
      exact foldlM_step_comment_closed hopen rfl
  | @openBlockComment body hnot hrest =>
      refine ⟨.comment (.block (body.getLast? = some '*')), ?_, rfl, Or.inr (by simp [hrest]),
        by simp [IsOpenBlock, hnot]⟩
      rw [foldlM_step_slash_star]
      exact foldlM_step_comment (Comment.foldlM_step_block hnot)
  | @word c cs hc hcs hstop =>
      refine ⟨.word (cs.reverse ++ [c]), ?_, by simp [tokens], Or.inr ?_, by simp [IsOpenBlock]⟩
      · rw [List.foldlM_cons, step, enter_letter hc]
        exact foldlM_step_run (fun _ => step_word) hcs [c]
      · intro d hd
        rw [step, if_neg (mt isWordPart_iff.1 (hstop d hd))]
  | @number c cs hc hcs hstop =>
      refine ⟨.number (cs.reverse ++ [c]), ?_, by simp [tokens], Or.inr ?_, by simp [IsOpenBlock]⟩
      · rw [List.foldlM_cons, step, enter_numberPart hc]
        exact foldlM_step_run (fun _ => step_number) hcs [c]
      · intro d hd
        rw [step, if_neg (mt isNumberPart_iff.1 (hstop d hd))]
  | @symbol c hw hl hn hs =>
      by_cases hc : c = '/'
      · subst hc
        refine ⟨.slash, by simp [step], rfl, Or.inr ?_, by simp [IsOpenBlock]⟩
        intro d hd
        rw [step, if_neg (hs rfl d hd).1, if_neg (hs rfl d hd).2]
      · refine ⟨.symbol c, ?_, rfl, Or.inr fun _ _ => rfl, by simp [IsOpenBlock]⟩
        simp [step, enter_other hw hl hn hc]

/-- **Scanning over one segment.** -/
theorem FitsBefore.tokens_append {seg : Segment} {rest : List Char} (h : seg.FitsBefore rest) :
    start.tokens (seg.text ++ rest) = seg.tokens ++ start.tokens rest := by
  obtain ⟨state, hr⟩ := h.exists_reaches
  rw [tokens_append_of_foldlM hr.foldlM_step, ← hr.completed]
  rcases hr.stops with rfl | hstop
  · rfl
  · exact tokens_of_stop hstop

end Segment

/-- **The tokens of a text are those of its segments.** -/
theorem Segmentation.tokens_eq {cs : List Char} {segs : List Segment} (h : Segmentation cs segs) :
    Scan.start.tokens cs = segs.flatMap Segment.tokens := by
  induction h with
  | nil => rfl
  | cons hf _ ih => rw [hf.tokens_append, ih, List.flatMap_cons]

/-! ### The images of words, numbers and symbols -/

namespace Segment

/-- Whether a segment leaves a token. -/
def isLexeme (seg : Segment) : Bool :=
  match seg.kind with
  | .word | .number | .symbol => true
  | .whitespace | .lineComment | .blockComment => false

/-- **The token that a segment stands for.**  A word stands for the reserved word or the primitive
type that is so spelled, and for an identifier if there is none. -/
inductive Denotes : Segment → Token → Prop
  | keyword {cs : List Char} {k : Keyword} : k.spelling.toList = cs →
      Denotes ⟨.word, cs⟩ (.keyword k)
  | primitiveType {cs : List Char} {t : PrimitiveType} : t.spelling.toList = cs →
      Denotes ⟨.word, cs⟩ (.primitiveType t)
  | identifier {cs : List Char} : (∀ k : Keyword, k.spelling.toList ≠ cs) →
      (∀ t : PrimitiveType, t.spelling.toList ≠ cs) →
      Denotes ⟨.word, cs⟩ (.identifier (String.ofList cs))
  | number (cs : List Char) : Denotes ⟨.number, cs⟩ (.number (numberValue cs))
  | symbol (c : Char) : Denotes ⟨.symbol, [c]⟩ (.symbol c)

theorem denotes_ofWord (cs : List Char) : Denotes ⟨.word, cs⟩ (.ofWord cs) := by
  have htext : ∀ w : String, w = String.ofList cs ↔ w.toList = cs := by
    intro w
    rw [← String.toList_inj, String.toList_ofList]
  simp only [Token.ofWord]
  split
  · next k hk => exact .keyword ((htext _).1 (Keyword.lookup_eq_some_iff.1 hk))
  · next hk =>
      split
      · next t ht => exact .primitiveType ((htext _).1 (PrimitiveType.lookup_eq_some_iff.1 ht))
      · next ht =>
          refine .identifier ?_ ?_
          · intro k h
            rw [Keyword.lookup_eq_some_iff.2 ((htext _).2 h)] at hk
            simp at hk
          · intro t h
            rw [PrimitiveType.lookup_eq_some_iff.2 ((htext _).2 h)] at ht
            simp at ht

/-- **A segment stands for one token at most.** -/
theorem Denotes.unique {seg : Segment} {a b : Token} (ha : seg.Denotes a) (hb : seg.Denotes b) :
    a = b := by
  have hkt : ∀ (k : Keyword) (t : PrimitiveType), k.spelling.toList ≠ t.spelling.toList :=
    fun k t h => Keyword.spelling_ne k t (String.toList_inj.1 h)
  cases ha with
  | keyword hk =>
      cases hb with
      | keyword hk' => rw [Keyword.spelling_injective (String.toList_inj.1 (hk.trans hk'.symm))]
      | primitiveType ht => exact absurd (hk.trans ht.symm) (hkt _ _)
      | identifier hno _ => exact absurd hk (hno _)
  | primitiveType ht =>
      cases hb with
      | keyword hk => exact absurd (hk.trans ht.symm) (hkt _ _)
      | primitiveType ht' =>
          rw [PrimitiveType.spelling_injective (String.toList_inj.1 (ht.trans ht'.symm))]
      | identifier _ hno => exact absurd ht (hno _)
  | identifier hnk hnt =>
      cases hb with
      | keyword hk => exact absurd hk (hnk _)
      | primitiveType ht => exact absurd ht (hnt _)
      | identifier _ _ => rfl
  | number _ => cases hb; rfl
  | symbol _ => cases hb; rfl

/-- **What the scanner makes of a segment is what it stands for.** -/
theorem FitsBefore.tokens_eq {seg : Segment} {rest : List Char} (h : seg.FitsBefore rest) :
    (seg.isLexeme = false ∧ seg.tokens = []) ∨
      ∃ a, seg.isLexeme = true ∧ seg.tokens = [a] ∧ seg.Denotes a := by
  cases h with
  | whitespace _ => exact Or.inl ⟨rfl, rfl⟩
  | lineComment _ _ => exact Or.inl ⟨rfl, rfl⟩
  | openLineComment _ _ => exact Or.inl ⟨rfl, rfl⟩
  | blockComment _ => exact Or.inl ⟨rfl, rfl⟩
  | openBlockComment _ _ => exact Or.inl ⟨rfl, rfl⟩
  | word _ _ _ => exact Or.inr ⟨_, rfl, rfl, denotes_ofWord _⟩
  | number _ _ _ => exact Or.inr ⟨_, rfl, rfl, .number _⟩
  | symbol _ _ _ _ => exact Or.inr ⟨_, rfl, rfl, .symbol _⟩

end Segment

/-- The tokens of a text are the images of its lexemes. -/
theorem Segmentation.forall₂_denotes {cs : List Char} {segs : List Segment}
    (h : Segmentation cs segs) :
    List.Forall₂ Segment.Denotes (segs.filter Segment.isLexeme) (Scan.start.tokens cs) := by
  induction h with
  | nil => exact List.Forall₂.nil
  | @cons seg rest segs hf _ ih =>
      rw [hf.tokens_append]
      rcases hf.tokens_eq with ⟨hl, ht⟩ | ⟨a, hl, ht, ha⟩
      · rw [List.filter_cons_of_neg (by simp [hl]), ht]
        exact ih
      · rw [List.filter_cons_of_pos hl, ht]
        exact List.Forall₂.cons ha ih

/-- **The tokens of a text are the images of its words, numbers and symbols**, in the one way in
which the text falls into segments.  Nothing of the text is left out of the segments. -/
theorem tokenize_iff_denotes (s : String) :
    ∃ segs, (∀ segs', Segmentation s.toList segs' ↔ segs' = segs) ∧
      segs.flatMap Segment.text = s.toList ∧ (∀ seg ∈ segs, seg.text ≠ []) ∧
      ∀ tokens, tokenize s = tokens ↔
        List.Forall₂ Segment.Denotes (segs.filter Segment.isLexeme) tokens := by
  obtain ⟨segs, h, hall⟩ := Segmentation.existsUnique s.toList
  refine ⟨segs, fun segs' => ⟨hall segs', fun heq => heq ▸ h⟩, h.flatMap_text, h.text_ne_nil, ?_⟩
  intro tokens
  have hunique : Relator.RightUnique Segment.Denotes := fun _ _ _ => Segment.Denotes.unique
  have himages := h.forall₂_denotes
  rw [← tokenize_eq_tokens] at himages
  constructor
  · rintro rfl
    exact himages
  · intro htokens
    exact hunique.forall₂ himages htokens

end StreamLexer
