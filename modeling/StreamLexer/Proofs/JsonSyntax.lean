/-
**The form of JSON texts.**

A value that is passed over is looked at for its form only.  The form asks for less than the rules
that give a value its meaning: the halves of a surrogate pair may stand alone between quotes, and a
number may be of any size.  Lists and objects are alike in it; the members of an object have a key
and a colon before their values, and the items of a list have nothing there.

Main definitions:

* `StreamLexer.Json.RawText` — what may stand between quotes;
* `StreamLexer.Json.ScalarText` — a value with nothing inside;
* `StreamLexer.Json.Scans` — **the form of a value**, and the rest of the text after it;
* `StreamLexer.Json.Entry`, `StreamLexer.Json.EntryText` — a member of an object: its key, and its
  value as it is written;
* `StreamLexer.Json.ObjectText` — **a whole text that is an object**, and its members.

Main results:

* `StreamLexer.Json.Reads.scans` — whatever is read as a value has the form of one;
* `StreamLexer.Json.IsJson.exists_objectText` — every text that is read as an object is one, and
  its members are written one by one.
-/

import StreamLexer.Json.Skip
import StreamLexer.Proofs.JsonGrammar

set_option relaxedAutoImplicit false
set_option autoImplicit false

namespace StreamLexer.Json

/-! ### Strings -/

/-- A character between quotes, or an escape by number that need not be one. -/
inductive RawChar : List Char → Prop
  | plain {c : Char} : 0x20 ≤ c.toNat → c ≠ '"' → c ≠ '\\' → RawChar [c]
  | letter {l c : Char} : letterEscape? l = some c → RawChar ['\\', l]
  | unit {ds : List Char} {n : Nat} : HexUnit ds n → RawChar ('\\' :: 'u' :: ds)

/-- **What may stand between quotes.** -/
inductive RawText : List Char → Prop
  | nil : RawText []
  | cons {part raw : List Char} : RawChar part → RawText raw → RawText (part ++ raw)

/-- The two halves of a pair are two escapes. -/
theorem CharText.rawText_append {part raw : List Char} {c : Char} (h : CharText part c)
    (hraw : RawText raw) : RawText (part ++ raw) := by
  cases h with
  | plain hc hquote hbackslash => exact .cons (.plain hc hquote hbackslash) hraw
  | letter hl => exact .cons (.letter hl) hraw
  | unit hds _ => exact .cons (.unit hds) hraw
  | pair hhigh hlow =>
      have hpair := RawText.cons (.unit hhigh) (.cons (.unit hlow) hraw)
      simpa only [List.cons_append, List.append_assoc] using hpair

/-- A text between quotes has the form of one. -/
theorem StringText.rawText {raw cs : List Char} (h : StringText raw cs) : RawText raw := by
  induction h with
  | nil => exact .nil
  | cons hc _ ih => exact hc.rawText_append ih

/-! ### Values -/

/-- A value with nothing inside. -/
inductive ScalarText : List Char → List Char → Prop
  | null {rest : List Char} : ScalarText ('n' :: (['u', 'l', 'l'] ++ rest)) rest
  | boolTrue {rest : List Char} : ScalarText ('t' :: (['r', 'u', 'e'] ++ rest)) rest
  | boolFalse {rest : List Char} : ScalarText ('f' :: (['a', 'l', 's', 'e'] ++ rest)) rest
  | number {l : Literal} {rest : List Char} : l.WellFormed → EndsNumber rest →
      ScalarText (l.text ++ rest) rest
  | string {raw rest : List Char} : RawText raw → ScalarText ('"' :: (raw ++ '"' :: rest)) rest

/-- The character that opens a container. -/
def Container.opening : Container → Char
  | list => '['
  | object => '\x7b'

/-- The character that closes a container. -/
def Container.closing : Container → Char
  | list => ']'
  | object => '\x7d'

/-- What stands before a value in a container: in an object, a key and a colon. -/
inductive LeadsTo : Container → List Char → List Char → Prop
  | item {cs : List Char} : LeadsTo .list cs cs
  | member {raw cs afterKey colon : List Char} :
      skipBlanks cs = '"' :: (raw ++ '"' :: afterKey) → RawText raw →
      skipBlanks afterKey = ':' :: colon → LeadsTo .object cs colon

/-- What has a form: a value, or what comes between the brackets of a container with something in
it. -/
inductive Extent where
  | value
  | inside (c : Container)
deriving DecidableEq, Repr

/-- **The form of a value**, and the rest of the text after it. -/
inductive Scans : Extent → List Char → List Char → Prop
  | scalar {cs rest : List Char} : ScalarText cs rest → Scans .value cs rest
  | empty {c : Container} {cs rest : List Char} : skipBlanks cs = c.closing :: rest →
      Scans .value (c.opening :: cs) rest
  | container {c : Container} {cs rest : List Char} : Scans (.inside c) cs rest →
      Scans .value (c.opening :: cs) rest
  | last {c : Container} {cs value after rest : List Char} : LeadsTo c cs value →
      Scans .value (skipBlanks value) after → skipBlanks after = c.closing :: rest →
      Scans (.inside c) cs rest
  | more {c : Container} {cs value after more rest : List Char} : LeadsTo c cs value →
      Scans .value (skipBlanks value) after → skipBlanks after = ',' :: more →
      Scans (.inside c) more rest → Scans (.inside c) cs rest

/-- How far a part of a text goes. -/
def Part.extent : Part → Extent
  | .value _ => .value
  | .items _ => .inside .list
  | .members _ => .inside .object

theorem ReadsKey.leadsTo {key cs colon : List Char} (h : ReadsKey key cs colon) :
    LeadsTo .object cs colon := by
  cases h with
  | key hquote hraw hcolon => exact .member hquote hraw.rawText hcolon

/-- **Whatever is read as a value has the form of one.** -/
theorem Reads.scans {p : Part} {cs rest : List Char} (h : Reads p cs rest) :
    Scans p.extent cs rest := by
  induction h with
  | null => exact .scalar .null
  | boolTrue => exact .scalar .boolTrue
  | boolFalse => exact .scalar .boolFalse
  | number hl hrest => exact .scalar (.number hl hrest)
  | string hraw => exact .scalar (.string hraw.rawText)
  | emptyList hclose => exact .empty (c := .list) hclose
  | list _ ih => exact .container (c := .list) ih
  | emptyObject hclose => exact .empty (c := .object) hclose
  | object _ ih => exact .container (c := .object) ih
  | lastItem _ hclose ih => exact .last .item ih hclose
  | item _ hcomma _ ih ihs => exact .more .item ih hcomma ihs
  | lastMember hkey _ hclose ih => exact .last hkey.leadsTo ih hclose
  | member hkey _ hcomma _ ih ihs => exact .more hkey.leadsTo ih hcomma ihs

/-! ### Objects -/

/-- A member of an object: its key, and its value as it is written. -/
structure Entry where
  key : List Char
  value : List Char
deriving DecidableEq, Repr

/-- **A member at the head of a text**, and the text after its value.  The key is read, and of the
value only the form matters. -/
inductive EntryText : Entry → List Char → List Char → Prop
  | entry {key value cs colon after : List Char} : ReadsKey key cs colon →
      skipBlanks colon = value ++ after → Scans .value (value ++ after) after →
      EntryText ⟨key, value⟩ cs after

/-- The members of an object with something in it, and the text after its brace. -/
inductive EntriesText : List Entry → List Char → List Char → Prop
  | last {e : Entry} {cs after rest : List Char} : EntryText e cs after →
      skipBlanks after = '\x7d' :: rest → EntriesText [e] cs rest
  | more {e : Entry} {es : List Entry} {cs after more rest : List Char} : EntryText e cs after →
      skipBlanks after = ',' :: more → EntriesText es more rest → EntriesText (e :: es) cs rest

/-- **A whole text that is an object**, and its members in order. -/
inductive ObjectText : List Entry → List Char → Prop
  | empty {cs inner rest : List Char} : skipBlanks cs = '\x7b' :: inner →
      skipBlanks inner = '\x7d' :: rest → skipBlanks rest = [] → ObjectText [] cs
  | entries {es : List Entry} {cs inner rest : List Char} : skipBlanks cs = '\x7b' :: inner →
      EntriesText es inner rest → skipBlanks rest = [] → ObjectText es cs

/-! ### Every object has members as they are written -/

theorem suffix_of_skipBlanks_eq {c : Char} {cs rest : List Char} (h : skipBlanks cs = c :: rest) :
    rest <:+ cs := by
  have hblanks : skipBlanks cs <:+ cs := List.dropWhile_suffix _
  rw [h] at hblanks
  exact (List.suffix_cons c rest).trans hblanks

theorem ScalarText.suffix {cs rest : List Char} (h : ScalarText cs rest) : rest <:+ cs := by
  cases h with
  | null | boolTrue | boolFalse => exact (List.suffix_append _ rest).trans (List.suffix_cons _ _)
  | number => exact List.suffix_append _ rest
  | @string raw rest _ =>
      have hquote : '"' :: rest <:+ raw ++ '"' :: rest := List.suffix_append _ _
      exact (List.suffix_cons _ rest).trans (hquote.trans (List.suffix_cons _ _))

theorem LeadsTo.suffix {c : Container} {cs value : List Char} (h : LeadsTo c cs value) :
    value <:+ cs := by
  cases h with
  | item => exact List.suffix_refl cs
  | @member raw _ afterKey _ hquote _ hcolon =>
      have hkey : '"' :: afterKey <:+ raw ++ '"' :: afterKey := List.suffix_append _ _
      exact (suffix_of_skipBlanks_eq hcolon).trans ((List.suffix_cons _ _).trans
        (hkey.trans (suffix_of_skipBlanks_eq hquote)))

/-- What is after a part of a text is the end of the text. -/
theorem Scans.suffix {e : Extent} {cs rest : List Char} (h : Scans e cs rest) : rest <:+ cs := by
  induction h with
  | scalar hs => exact hs.suffix
  | empty hclose => exact (suffix_of_skipBlanks_eq hclose).trans (List.suffix_cons _ _)
  | container _ ih => exact ih.trans (List.suffix_cons _ _)
  | last hlead _ hclose ih =>
      have hvalue := ih.trans ((List.dropWhile_suffix _).trans hlead.suffix)
      exact (suffix_of_skipBlanks_eq hclose).trans hvalue
  | more hlead _ hcomma _ ih ihs =>
      have hvalue := ih.trans ((List.dropWhile_suffix _).trans hlead.suffix)
      exact ihs.trans ((suffix_of_skipBlanks_eq hcomma).trans hvalue)

/-- A member as it is written, and the member that is read of it. -/
structure Entry.Writes (e : Entry) (m : List Char × Value) : Prop where
  key_eq : e.key = m.1
  value : ∃ after, Reads (.value m.2) (e.value ++ after) after

theorem ReadsKey.exists_entryText {key cs colon after : List Char} {v : Value}
    (hkey : ReadsKey key cs colon) (hv : Reads (.value v) (skipBlanks colon) after) :
    ∃ e : Entry, EntryText e cs after ∧ e.Writes (key, v) := by
  obtain ⟨value, hslice⟩ := hv.scans.suffix
  rw [← hslice] at hv
  exact ⟨⟨key, value⟩, .entry hkey hslice.symm hv.scans, rfl, after, hv⟩

theorem Reads.exists_entriesText {ms : List (List Char × Value)} {cs rest : List Char}
    (h : Reads (.members ms) cs rest) :
    ∃ es, EntriesText es cs rest ∧ List.Forall₂ Entry.Writes es ms := by
  induction ms generalizing cs with
  | nil => cases h
  | cons m ms ih =>
      cases h with
      | lastMember hkey hv hclose =>
          obtain ⟨e, he, hwrites⟩ := hkey.exists_entryText hv
          exact ⟨[e], .last he hclose, .cons hwrites .nil⟩
      | member hkey hv hcomma hmembers =>
          obtain ⟨e, he, hwrites⟩ := hkey.exists_entryText hv
          obtain ⟨es, hes, hmore⟩ := ih hmembers
          exact ⟨e :: es, .more he hcomma hes, .cons hwrites hmore⟩

/-- **Every text that is read as an object is one**, and its members are written one by one. -/
theorem IsJson.exists_objectText {ms : List (List Char × Value)} {cs : List Char}
    (h : IsJson cs (.object ms)) :
    ∃ es, ObjectText es cs ∧ List.Forall₂ Entry.Writes es ms := by
  obtain ⟨rest, hobject, hend⟩ := h
  obtain ⟨inner, hopen, ⟨rfl, hclose⟩ | hmembers⟩ := Reads.object_iff.1 hobject
  · exact ⟨[], .empty hopen hclose hend, .nil⟩
  · obtain ⟨es, hes, hwrites⟩ := hmembers.exists_entriesText
    exact ⟨es, .entries hopen hes hend, hwrites⟩

theorem Entry.map_key_eq {es : List Entry} {ms : List (List Char × Value)}
    (h : List.Forall₂ Writes es ms) : es.map key = ms.map Prod.fst := by
  induction h with
  | nil => rfl
  | cons hfirst _ ih => rw [List.map_cons, hfirst.key_eq, ih, List.map_cons]

theorem Entry.exists_mem_writes {es : List Entry} {ms : List (List Char × Value)}
    (h : List.Forall₂ Writes es ms) {e : Entry} (he : e ∈ es) : ∃ m ∈ ms, e.Writes m := by
  induction h with
  | nil => cases he
  | cons hfirst _ ih =>
      rcases List.mem_cons.1 he with rfl | he
      · exact ⟨_, List.mem_cons_self, hfirst⟩
      · obtain ⟨m, hm, hwrites⟩ := ih he
        exact ⟨m, List.mem_cons_of_mem _ hm, hwrites⟩

end StreamLexer.Json
