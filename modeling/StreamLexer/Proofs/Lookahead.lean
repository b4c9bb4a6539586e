/-
**Where a call leaves the tokenizer.**

A call for the next token passes over whitespace and comments, reads one word, number or symbol, and
stops as soon as it can: what follows that segment is still before the tokenizer, its first
character as the lookahead and the others unread in the source.  A slash is no exception, although
the scanner has to see another character before it knows that no comment starts there.  So after any
number of calls the place of the tokenizer in the text is known.

Main definitions:

* `StreamLexer.Tokenizer.Settled` — a tokenizer that reports the end only when nothing is unread;
* `StreamLexer.Tokenizer.StandsBefore` — **the place of a tokenizer**, by the text that is left;
* `StreamLexer.LexemeAt` — the first, second, … word, number or symbol of a text.

Main results:

* `StreamLexer.Segment.FitsBefore.nextToken_lexeme`, `StreamLexer.Segment.FitsBefore.nextToken_skip`
  — **a call over one segment**;
* `StreamLexer.Tokenizer.calls_lexeme` — so many calls;
* `StreamLexer.Tokenizer.Settled.standsBefore` — the place, from the characters still to scan;
* `StreamLexer.calls_leave_rest` — **after a token exactly the rest of the text is left**.
-/

import StreamLexer.Proofs.EndOfInput
import StreamLexer.Proofs.LexicalGrammar

set_option relaxedAutoImplicit false
set_option autoImplicit false

namespace StreamLexer

open Scan Segment

variable {σ : Type} [CharSource σ]

/-! ### A call over one segment -/

namespace Tokenizer

variable {t : Tokenizer σ}

theorem lookahead_of_unread_cons {c : Char} {cs : List Char} (h : t.unread = c :: cs) :
    t.lookahead = some c ∧ t.advance.unread = cs := by
  cases hl : t.lookahead with
  | none => simp [unread_of_none hl] at h
  | some d =>
      rw [unread_of_some hl] at h
      obtain ⟨rfl, hcs⟩ := List.cons.inj h
      exact ⟨rfl, hcs⟩

theorem lookahead_of_unread_nil (h : t.unread = []) : t.lookahead = none := by
  cases hl : t.lookahead with
  | none => rfl
  | some d => simp [unread_of_some hl] at h

/-- Characters that are all accepted are passed over. -/
theorem scanFrom_of_foldlM {u rest : List Char} {state state' : Scan}
    (hu : u.foldlM step state = some state') (ht : t.unread = u ++ rest) :
    ∃ t', t'.unread = rest ∧ scanFrom state t = scanFrom state' t' := by
  induction u generalizing state t with
  | nil =>
      obtain rfl : state = state' := Option.some_inj.1 hu
      exact ⟨t, ht, rfl⟩
  | cons c u ih =>
      obtain ⟨s, hs, hu⟩ := Option.bind_eq_some_iff.1 hu
      obtain ⟨hl, hadvance⟩ := lookahead_of_unread_cons ht
      obtain ⟨t', ht', hscan⟩ := ih hu hadvance
      refine ⟨t', ht', ?_⟩
      rw [scanFrom_of_some hl, hs]
      exact hscan

/-- Where the next character is refused, or there is none, the scan stops. -/
theorem scanFrom_of_stop {state : Scan} (h : ∀ c ∈ t.unread.head?, state.step c = none) :
    scanFrom state t = (state.token, t) := by
  cases hl : t.lookahead with
  | none => exact scanFrom_of_none hl
  | some c =>
      have hc : state.step c = none := h c (by rw [unread_of_some hl]; rfl)
      rw [scanFrom_of_some hl, hc]

end Tokenizer

namespace Segment

variable {t : Tokenizer σ} {seg : Segment} {rest : List Char}

/-- **A call that begins before a word, a number or a symbol** returns its token, and leaves what
follows. -/
theorem FitsBefore.nextToken_lexeme (h : seg.FitsBefore rest) (hlexeme : seg.isLexeme = true)
    (ht : t.unread = seg.text ++ rest) :
    ∃ token t', t.nextToken = (token, t') ∧ seg.Denotes token ∧ t'.unread = rest := by
  obtain ⟨state, hreaches⟩ := h.exists_reaches
  obtain ⟨t', ht', hscan⟩ := Tokenizer.scanFrom_of_foldlM hreaches.foldlM_step ht
  rcases h.tokens_eq with ⟨hno, _⟩ | ⟨token, _, htokens, hdenotes⟩
  · rw [hlexeme] at hno
    exact absurd hno.symm Bool.false_ne_true
  · have hcompleted : state.completed = [token] := hreaches.completed.trans htokens
    have htoken : state.token = token := by
      rcases completed_eq state with ⟨_, hnil⟩ | ⟨_, hone⟩
      · rw [hnil] at hcompleted
        exact absurd hcompleted.symm (List.cons_ne_nil _ _)
      · exact List.singleton_inj.1 (hone.symm.trans hcompleted)
    -- a state with a token is not the state of rest
    have hstop : ∀ c ∈ t'.unread.head?, state.step c = none := by
      rw [ht']
      rcases hreaches.stops with rfl | hstop
      · exact absurd hcompleted.symm (List.cons_ne_nil _ _)
      · exact hstop
    refine ⟨token, t', ?_, hdenotes, ht'⟩
    rw [← htoken, ← Tokenizer.scanFrom_of_stop hstop]
    exact hscan

/-- **A call that begins before whitespace or a comment** is one that begins after it. -/
theorem FitsBefore.nextToken_skip (h : seg.FitsBefore rest) (hskip : seg.isLexeme = false)
    (ht : t.unread = seg.text ++ rest) :
    ∃ t' : Tokenizer σ, t'.unread = rest ∧ t.nextToken = t'.nextToken := by
  obtain ⟨state, hreaches⟩ := h.exists_reaches
  obtain ⟨t', ht', hscan⟩ := Tokenizer.scanFrom_of_foldlM hreaches.foldlM_step ht
  refine ⟨t', ht', ?_⟩
  rcases h.tokens_eq with ⟨_, htokens⟩ | ⟨_, hlexeme, _⟩
  · have hcompleted : state.completed = [] := hreaches.completed.trans htokens
    rcases hreaches.stops with rfl | hstop
    · exact hscan
    · -- only at the end of the text does a state without a token stop
      cases rest with
      | nil =>
          have hend := Tokenizer.lookahead_of_unread_nil ht'
          rcases completed_eq state with ⟨htoken, _⟩ | ⟨_, hone⟩
          · have hnext : t'.nextToken = (.endOfInput, t') := Tokenizer.scanFrom_of_none hend
            rw [Tokenizer.scanFrom_of_none hend, htoken] at hscan
            rw [hnext]
            exact hscan
          · rw [hcompleted] at hone
            exact absurd hone.symm (List.cons_ne_nil _ _)
      | cons c rest =>
          have hone := (completed_of_step_eq_none (hstop c rfl)).2
          rw [hcompleted] at hone
          exact absurd hone.symm (List.cons_ne_nil _ _)
  · rw [hskip] at hlexeme
    exact absurd hlexeme Bool.false_ne_true

end Segment

/-! ### So many calls -/

/-- Calls that begin alike go on alike. -/
theorem Tokenizer.calls_succ_congr {t t' : Tokenizer σ} (h : t.nextToken = t'.nextToken) (k : Nat) :
    calls (k + 1) t = calls (k + 1) t' := by
  simp only [calls, h]

/-- **So many calls** over the segments of a text: the last returns the token of its segment, and
leaves what follows. -/
theorem Tokenizer.calls_lexeme {k : Nat} {t : Tokenizer σ} {before after : List Segment}
    {seg : Segment} (h : Segmentation t.unread (before ++ seg :: after))
    (hlexeme : seg.isLexeme = true) (hcount : (before.filter Segment.isLexeme).length = k) :
    ∃ token, (calls (k + 1) t).1.getLast? = some token ∧ seg.Denotes token ∧
      (calls (k + 1) t).2.unread = after.flatMap Segment.text := by
  induction before generalizing k t with
  | nil =>
      obtain rfl : 0 = k := hcount
      generalize hu : t.unread = u at h
      cases h with
      | cons hfits hrest =>
          obtain ⟨token, t', hnext, hdenotes, ht'⟩ := hfits.nextToken_lexeme hlexeme hu
          refine ⟨token, ?_, hdenotes, ?_⟩
          · rw [calls_succ_of_nextToken hnext]
            rfl
          · rw [calls_succ_of_nextToken hnext, hrest.flatMap_text]
            exact ht'
  | cons first before ih =>
      generalize hu : t.unread = u at h
      cases h with
      | cons hfits hrest =>
          cases hfirst : first.isLexeme with
          | true =>
              obtain ⟨token₀, t', hnext, _, ht'⟩ := hfits.nextToken_lexeme hfirst hu
              rw [List.filter_cons_of_pos hfirst, List.length_cons] at hcount
              obtain ⟨k, rfl⟩ : ∃ n, k = n + 1 := ⟨_, hcount.symm⟩
              rw [← ht'] at hrest
              obtain ⟨token, hlast, hdenotes, hunread⟩ := ih hrest (Nat.succ_inj.1 hcount)
              refine ⟨token, ?_, hdenotes, ?_⟩
              · rw [calls_succ_of_nextToken hnext, List.getLast?_cons, hlast]
                rfl
              · rw [calls_succ_of_nextToken hnext]
                exact hunread
          | false =>
              obtain ⟨t', ht', hnext⟩ := hfits.nextToken_skip hfirst hu
              rw [List.filter_cons_of_neg (by simp [hfirst])] at hcount
              rw [← ht'] at hrest
              rw [calls_succ_congr hnext]
              exact ih hrest hcount

/-! ### The lookahead -/

namespace Tokenizer

variable {t t' : Tokenizer TextCursor}

/-- **The end is reported only when nothing is unread.** -/
def Settled (t : Tokenizer TextCursor) : Prop := t.lookahead = none → t.source.unread = []

theorem settled_ofString (s : String) : (ofString s).Settled :=
  fun h => absurd h (Option.some_ne_none ' ')

theorem settled_advance (t : Tokenizer TextCursor) : t.advance.Settled := by
  obtain ⟨⟨unread⟩, lookahead⟩ := t
  cases unread with
  | nil => exact fun _ => rfl
  | cons c cs => exact fun h => absurd h (Option.some_ne_none c)

theorem Advances.settled (h : Advances t t') (ht : t.Settled) : t'.Settled := by
  induction h with
  | refl => exact ht
  | head _ _ ih => exact ih (settled_advance _)

/-- **The tokenizer stands before `rest`**: the first character of it is the lookahead and the
others are unread; before nothing there is neither. -/
structure StandsBefore (t : Tokenizer TextCursor) (rest : List Char) : Prop where
  lookahead_eq : t.lookahead = rest.head?
  unread_eq : t.source.unread = rest.tail

/-- **A tokenizer stands before the characters that it has still to scan.** -/
theorem Settled.standsBefore (h : t.Settled) : t.StandsBefore t.unread := by
  cases hl : t.lookahead with
  | none =>
      rw [unread_of_none hl]
      exact ⟨hl, h hl⟩
  | some c =>
      have hunread : t.unread = c :: t.source.unread := by
        rw [unread, hl]
        exact congrArg (c :: ·) (TextCursor.readAll_fst t.source)
      rw [hunread]
      exact ⟨hl, rfl⟩

end Tokenizer

/-! ### The place in the text -/

/-- **The `k`-th word, number or symbol of a text**, counted from one, and the segments before and
after it. -/
structure LexemeAt (cs : List Char) (k : Nat) (before : List Segment) (seg : Segment)
    (after : List Segment) : Prop where
  segmentation : Segmentation cs (before ++ seg :: after)
  isLexeme : seg.isLexeme = true
  count : (before.filter Segment.isLexeme).length + 1 = k

theorem exists_split_of_lt_length_filter {α : Type} {p : α → Bool} {l : List α} {k : Nat}
    (h : k < (l.filter p).length) :
    ∃ before x after, l = before ++ x :: after ∧ p x = true ∧ (before.filter p).length = k := by
  induction l generalizing k with
  | nil => exact absurd h (Nat.not_lt_zero k)
  | cons y l ih =>
      cases hy : p y with
      | true =>
          rw [List.filter_cons_of_pos hy, List.length_cons] at h
          cases k with
          | zero => exact ⟨[], y, l, rfl, hy, rfl⟩
          | succ k =>
              obtain ⟨before, x, after, rfl, hx, hcount⟩ := ih (Nat.lt_of_succ_lt_succ h)
              refine ⟨y :: before, x, after, rfl, hx, ?_⟩
              rw [List.filter_cons_of_pos hy, List.length_cons, hcount]
      | false =>
          have hy' : ¬ p y = true := by simp [hy]
          rw [List.filter_cons_of_neg hy'] at h
          obtain ⟨before, x, after, rfl, hx, hcount⟩ := ih h
          refine ⟨y :: before, x, after, rfl, hx, ?_⟩
          rw [List.filter_cons_of_neg hy', hcount]

/-- A text has as many words, numbers and symbols as tokens. -/
theorem exists_lexemeAt_iff {s : String} {k : Nat} (hk : 0 < k) :
    (∃ before seg after, LexemeAt s.toList k before seg after) ↔ k ≤ (tokenize s).length := by
  obtain ⟨segs, hsegs, _⟩ := Segmentation.existsUnique s.toList
  have hlength : (segs.filter Segment.isLexeme).length = (tokenize s).length := by
    rw [tokenize_eq_tokens]
    exact hsegs.forall₂_denotes.length_eq
  rw [← hlength]
  constructor
  · rintro ⟨before, seg, after, h⟩
    rw [hsegs.unique h.segmentation, List.filter_append, List.filter_cons_of_pos h.isLexeme,
      List.length_append, List.length_cons]
    have hcount := h.count
    omega
  · intro hle
    obtain ⟨before, seg, after, rfl, hlexeme, hcount⟩ :=
      exists_split_of_lt_length_filter (Nat.lt_of_lt_of_le (Nat.sub_one_lt_of_lt hk) hle)
    exact ⟨before, seg, after, hsegs, hlexeme, by omega⟩

/-- No segment stands for the end of the input. -/
theorem Segment.Denotes.ne_endOfInput {seg : Segment} {token : Token} (h : seg.Denotes token) :
    token ≠ .endOfInput := by
  cases h <;> simp

theorem ne_endOfInput_of_denotes {segs : List Segment} {tokens : List Token}
    (h : List.Forall₂ Segment.Denotes segs tokens) : ∀ token ∈ tokens, token ≠ .endOfInput := by
  induction h with
  | nil => simp
  | cons hdenotes _ ih => exact List.forall_mem_cons.2 ⟨hdenotes.ne_endOfInput, ih⟩

/-- Calls that all return tokens are calls for tokens of the text. -/
theorem forall_mem_calls_iff {s : String} {k : Nat} :
    (∀ token ∈ ((Tokenizer.ofString s).calls k).1, token ≠ .endOfInput) ↔
      k ≤ (tokenize s).length := by
  have htokens : start.tokens (Tokenizer.ofString s).unread = tokenize s :=
    (Tokenizer.collect_fst _).symm
  rw [Tokenizer.calls_fst, htokens]
  constructor
  · intro h
    by_contra hlt
    refine h .endOfInput (List.mem_append_right _ ?_) rfl
    exact List.mem_replicate.2 ⟨by omega, rfl⟩
  · intro hle token htoken
    obtain ⟨segs, hsegs, _⟩ := Segmentation.existsUnique s.toList
    have hdenotes := hsegs.forall₂_denotes
    rw [← tokenize_eq_tokens] at hdenotes
    rw [Nat.sub_eq_zero_of_le hle, List.replicate_zero, List.append_nil] at htoken
    exact ne_endOfInput_of_denotes hdenotes token (List.mem_of_mem_take htoken)

/-- A call that reports the end of the input leaves nothing. -/
theorem lookahead_of_endOfInput_mem_calls {s : String} {k : Nat}
    (h : Token.endOfInput ∈ ((Tokenizer.ofString s).calls k).1) :
    ((Tokenizer.ofString s).calls k).2.lookahead = none := by
  refine Tokenizer.lookahead_calls ?_
  by_contra hle
  have htokens : start.tokens (Tokenizer.ofString s).unread = tokenize s :=
    (Tokenizer.collect_fst _).symm
  rw [htokens] at hle
  exact forall_mem_calls_iff.2 (Nat.le_of_not_lt hle) _ h rfl

/-- **The calls up to a word, a number or a symbol of a text.** -/
theorem LexemeAt.calls {s : String} {k : Nat} {before after : List Segment} {seg : Segment}
    (h : LexemeAt s.toList k before seg after) :
    ∃ token, ((Tokenizer.ofString s).calls k).1.getLast? = some token ∧ seg.Denotes token ∧
      ((Tokenizer.ofString s).calls k).2.unread = after.flatMap Segment.text := by
  -- the blank before the text is one more segment
  have hblank : Segmentation (Tokenizer.ofString s).unread
      (⟨.whitespace, [' ']⟩ :: before ++ seg :: after) := by
    rw [Tokenizer.unread_ofString]
    exact .cons (.whitespace (by decide)) h.segmentation
  obtain rfl := h.count
  exact Tokenizer.calls_lexeme hblank h.isLexeme rfl

/-- **After a token exactly the rest of the text is left.**  Before the first call nothing is read.
So many calls return tokens just when the text has so many words, numbers and symbols; the last of
them returns the token of the last of these and leaves the tokenizer before what follows it.  Going
on gives the tokens of what follows, and a new tokenizer over the source gives those of what follows
without its first character.  Once the end has been reported nothing is unread. -/
theorem calls_leave_rest (s : String) :
    ((Tokenizer.ofString s).calls 0).2 = ⟨⟨s.toList⟩, some ' '⟩ ∧
      (∀ k, 0 < k → ((∀ token ∈ ((Tokenizer.ofString s).calls k).1, token ≠ .endOfInput) ↔
        ∃ before seg after, LexemeAt s.toList k before seg after)) ∧
      (∀ k before seg after, LexemeAt s.toList k before seg after →
        ∃ rest, s.toList = before.flatMap Segment.text ++ seg.text ++ rest ∧
          rest = after.flatMap Segment.text ∧
          (∃ token, ((Tokenizer.ofString s).calls k).1.getLast? = some token ∧
            seg.Denotes token) ∧
          ((Tokenizer.ofString s).calls k).2.StandsBefore rest ∧
          ((Tokenizer.ofString s).calls k).2.collect.1 = tokenize (String.ofList rest) ∧
          (Tokenizer.ofSource ((Tokenizer.ofString s).calls k).2.source).collect.1 =
            tokenize (String.ofList rest.tail)) ∧
      ∀ k, Token.endOfInput ∈ ((Tokenizer.ofString s).calls k).1 →
        ((Tokenizer.ofString s).calls k).2.StandsBefore [] := by
  have hsettled : ∀ k, ((Tokenizer.ofString s).calls k).2.Settled := fun k =>
    (Tokenizer.advances_calls k _).settled (Tokenizer.settled_ofString s)
  refine ⟨rfl, ?_, ?_, ?_⟩
  · intro k hk
    rw [forall_mem_calls_iff, exists_lexemeAt_iff hk]
  · intro k before seg after h
    obtain ⟨token, hlast, hdenotes, hunread⟩ := h.calls
    have hplace := (hsettled k).standsBefore
    rw [hunread] at hplace
    refine ⟨_, ?_, rfl, ⟨token, hlast, hdenotes⟩, hplace, ?_, ?_⟩
    · rw [← h.segmentation.flatMap_text]
      simp
    · rw [Tokenizer.collect_fst, hunread, tokenize_eq_tokens, String.toList_ofList]
    · rw [Tokenizer.collect_fst, ← hplace.unread_eq]
      refine Tokenizer.tokens_unread_ofSource ?_
      rw [String.toList_ofList, TextCursor.readAll_fst]
  · intro k hend
    have hnone := lookahead_of_endOfInput_mem_calls hend
    exact ⟨hnone, by rw [hsettled k hnone, List.tail_nil]⟩

/-- A slash that opens no comment: what follows it is ahead, and was read once. -/
theorem calls_leave_rest_after_slash :
    0 < 2 ∧ (∀ token ∈ ((Tokenizer.ofString "a/bc").calls 2).1, token ≠ .endOfInput) ∧
      (∃ before seg after, LexemeAt "a/bc".toList 2 before seg after ∧
        after.flatMap Segment.text = ['b', 'c']) ∧
      ((Tokenizer.ofString "a/bc").calls 2).2.StandsBefore ['b', 'c'] ∧
      (Tokenizer.ofSource ((Tokenizer.ofString "a/bc").calls 2).2.source).collect.1 =
        tokenize "c" ∧
      Token.endOfInput ∈ ((Tokenizer.ofString "a/bc").calls 4).1 ∧
      ((Tokenizer.ofString "a/bc").calls 4).2.StandsBefore [] := by
  have hcalls : ∀ token ∈ ((Tokenizer.ofString "a/bc").calls 2).1, token ≠ .endOfInput := by
    decide +kernel
  have hend : Token.endOfInput ∈ ((Tokenizer.ofString "a/bc").calls 4).1 := by decide +kernel
  obtain ⟨_, hlexeme, hrest, hterminal⟩ := calls_leave_rest "a/bc"
  obtain ⟨before, seg, after, h⟩ := (hlexeme 2 (by decide)).1 hcalls
  obtain ⟨rest, _, rfl, _, hplace, _, hnew⟩ := hrest 2 before seg after h
  have hahead : ((Tokenizer.ofString "a/bc").calls 2).2.lookahead = some 'b' := by decide +kernel
  have hunread : ((Tokenizer.ofString "a/bc").calls 2).2.source.unread = ['c'] := by decide +kernel
  have htext : after.flatMap Segment.text = ['b', 'c'] := by
    rw [hplace.lookahead_eq] at hahead
    rw [hplace.unread_eq] at hunread
    rw [List.eq_cons_of_mem_head? hahead, hunread]
  rw [htext] at hplace hnew
  exact ⟨by decide, hcalls, ⟨before, seg, after, h, htext⟩, hplace, hnew, hend, hterminal 4 hend⟩

end StreamLexer
