/-
**The tables of words.**

A table pairs each word of a closed set with its spelling, and no two words of a set are spelled
alike; so a search of the table finds a word exactly when the text is its spelling.  The two sets
of words have no spelling in common.

Main results:

* `StreamLexer.lookup_map_eq_some_iff` — a search of such a table;
* `StreamLexer.Keyword.lookup_eq_some_iff`, `StreamLexer.PrimitiveType.lookup_eq_some_iff` — **a
  word is found by its spelling and by nothing else**;
* `StreamLexer.Keyword.spelling_ne` — a reserved word is not the name of a primitive type.
-/

import StreamLexer.Word.Keyword
import StreamLexer.Word.PrimitiveType
import Mathlib.Logic.Function.Basic

set_option relaxedAutoImplicit false
set_option autoImplicit false

namespace StreamLexer

/-- **A search of a table** in which every element of `α` stands under its spelling finds an
element by its spelling and by nothing else. -/
theorem lookup_map_eq_some_iff {α : Type} {spelling : α → String}
    (hinj : Function.Injective spelling) (w : String) (a : α) (as : List α) :
    (as.map fun a => (spelling a, a)).lookup w = some a ↔ a ∈ as ∧ spelling a = w := by
  induction as with
  | nil => simp
  | cons b as ih =>
      by_cases hb : w = spelling b
      · subst hb
        simp only [List.map_cons, List.lookup_cons, BEq.rfl, Option.some.injEq, List.mem_cons]
        constructor
        · rintro rfl
          exact ⟨Or.inl rfl, rfl⟩
        · rintro ⟨_, h⟩
          exact (hinj h).symm
      · have hbeq : (w == spelling b) = false := by simpa using hb
        simp only [List.map_cons, List.lookup_cons, hbeq, ih, List.mem_cons]
        constructor
        · rintro ⟨hm, h⟩
          exact ⟨Or.inr hm, h⟩
        · rintro ⟨rfl | hm, h⟩
          · exact absurd h.symm hb
          · exact ⟨hm, h⟩

namespace Keyword

/-- Reading the spelling of a reserved word gives the word back. -/
theorem ofString?_spelling (k : Keyword) : ofString? k.spelling = some k := by
  cases k <;> rfl

theorem spelling_injective : Function.Injective spelling := by
  intro k k' h
  have hk := ofString?_spelling k
  rw [h, ofString?_spelling k'] at hk
  exact (Option.some_inj.1 hk).symm

theorem mem_all (k : Keyword) : k ∈ all := by
  cases k <;> decide

/-- **A reserved word is found by its spelling and by nothing else.** -/
theorem lookup_eq_some_iff {w : String} {k : Keyword} : lookup w = some k ↔ k.spelling = w := by
  rw [lookup, table, lookup_map_eq_some_iff spelling_injective]
  exact ⟨And.right, fun h => ⟨mem_all k, h⟩⟩

end Keyword

namespace PrimitiveType

/-- Reading the spelling of a primitive type gives the type back. -/
theorem ofString?_spelling (t : PrimitiveType) : ofString? t.spelling = some t := by
  cases t <;> rfl

theorem spelling_injective : Function.Injective spelling := by
  intro t t' h
  have ht := ofString?_spelling t
  rw [h, ofString?_spelling t'] at ht
  exact (Option.some_inj.1 ht).symm

theorem mem_all (t : PrimitiveType) : t ∈ all := by
  cases t <;> decide

/-- **A primitive type is found by its spelling and by nothing else.** -/
theorem lookup_eq_some_iff {w : String} {t : PrimitiveType} :
    lookup w = some t ↔ t.spelling = w := by
  rw [lookup, table, lookup_map_eq_some_iff spelling_injective]
  exact ⟨And.right, fun h => ⟨mem_all t, h⟩⟩

end PrimitiveType

/-- No primitive type is named by a reserved word. -/
theorem Keyword.ofString?_spelling_primitiveType (t : PrimitiveType) :
    Keyword.ofString? t.spelling = none := by
  cases t <;> rfl

/-- **A reserved word is not the name of a primitive type.** -/
theorem Keyword.spelling_ne (k : Keyword) (t : PrimitiveType) : k.spelling ≠ t.spelling := by
  intro h
  have hk := ofString?_spelling k
  rw [h, ofString?_spelling_primitiveType] at hk
  simp at hk

end StreamLexer
