/-
**Configurations in texts.**

Reading an object adds its members to a draft, one after another.  A member with another key leaves
the draft as it is, whatever its value; a known member is added with the value of its field; and one
that has been added before is refused.  So an object is read as a configuration if its known members
have the values of its fields, once each, and what is left out has the default.  Neither the order
of the members nor the blanks, the escapes in a key or the other members make a difference.

Main definitions:

* `StreamLexer.Config.IsDefault`, `StreamLexer.Config.WrittenBy`, `StreamLexer.Config.GivenBy` —
  **the members of an object write a configuration**, and the members that are read of one give it;
* `StreamLexer.Config.readEntries` — a member and those after it;
* `StreamLexer.Config.Draft.ofKnown` — a draft that knows some members of a configuration.

Main results:

* `StreamLexer.Config.readEntry_ofText` — what one member does to a draft;
* `StreamLexer.Config.readEntries_of_written` — **known members are added one by one**;
* `StreamLexer.Config.count_le_of_readEntries` — **no known member is read twice**;
* `StreamLexer.Config.ofString_members` — what an object is read as.
-/

import StreamLexer.Proofs.ConfigValues
import StreamLexer.Proofs.JsonText

set_option relaxedAutoImplicit false
set_option autoImplicit false

namespace StreamLexer.Config

open Json

/-! ### Members by name -/

theorem Member.ofName?_eq_some_iff {s : String} {m : Member} :
    Member.ofName? s = some m ↔ s = m.name := by
  constructor
  · intro h
    unfold Member.ofName? at h
    split at h <;> cases h
    all_goals rfl
  · rintro rfl
    cases m <;> rfl

theorem Member.ofName?_ofList_eq_some_iff {key : List Char} {m : Member} :
    Member.ofName? (String.ofList key) = some m ↔ key = m.name.toList := by
  rw [Member.ofName?_eq_some_iff]
  constructor
  · intro h
    rw [← h, String.toList_ofList]
  · rintro rfl
    rw [String.ofList_toList]

theorem Member.name_injective {m m' : Member} (h : m.name.toList = m'.name.toList) : m = m' := by
  have hname := Member.ofName?_ofList_eq_some_iff.2 h
  rw [Member.ofName?_ofList_eq_some_iff.2 rfl] at hname
  exact Option.some.inj hname

/-! ### The loop over the members -/

/-- A member that must follow, and those after it. -/
def readEntries (d : Draft) : Reader Draft :=
  (keyAfterComma >>= fun _ => readEntry d) >>= readMoreEntries

theorem readMoreEntries_eq (d : Draft) :
    readMoreEntries d = (do
      match ← nextSolid with
      | none => throw .endInObject
      | some b =>
          if b = byte '\x7d' then pure d
          else if b = byte ',' then readEntries d
          else throw .expectedObjectCommaOrEnd : Reader Draft) := by
  funext s
  rw [readMoreEntries]
  rcases hs : nextSolid s with e | ⟨_ | b, rest⟩
  · rw [bind_of_eq_error hs]
  · rw [bind_of_eq_ok hs]
    rfl
  · rw [bind_of_eq_ok hs]
    dsimp only
    split
    · rfl
    · split
      · rw [readEntries]
        cases he : (keyAfterComma >>= fun _ => readEntry d) rest with
        | error e => rw [bind_of_eq_error he]
        | ok entry => rw [bind_of_eq_ok he]
      · rfl

variable {cs rest : List Char}

theorem readMoreEntries_close (h : skipBlanks cs = '\x7d' :: rest) (d : Draft) :
    readMoreEntries d (.ofText cs) = .ok (d, .ofText rest) := by
  rw [readMoreEntries_eq, bind_of_eq_ok (nextSolid_ofText h (by decide))]
  simp only [if_true]
  rfl

theorem readMoreEntries_comma (h : skipBlanks cs = ',' :: rest) (d : Draft) :
    readMoreEntries d (.ofText cs) = readEntries d (.ofText rest) := by
  rw [readMoreEntries_eq, bind_of_eq_ok (nextSolid_ofText h (by decide))]
  dsimp only
  rw [if_neg (by decide), if_pos rfl]

theorem keyAfterComma_ofText (h : skipBlanks cs = '"' :: rest) :
    keyAfterComma (.ofText cs) = .ok ((), .ofText rest) := by
  rw [keyAfterComma, bind_of_eq_ok (nextSolid_ofText h (by decide))]
  simp only [if_true]
  rfl

/-! ### One member -/

/-- The value of a member whose key has been read, and what it does to a draft. -/
def Draft.readKeyed (d : Draft) : Option Member → Reader Draft
  | none => do
      skipValue
      pure d
  | some m => if d.has m then throw (.duplicateField m.name) else d.readMember m

/-- **What one member does to a draft** is told by its key and its value.  That a member is there
already shows before its value. -/
theorem readEntry_ofText {e : Entry} {after : List Char} (h : EntryText e cs after) (d : Draft) :
    (keyAfterComma >>= fun _ => readEntry d) (.ofText cs) =
      d.readKeyed (Member.ofName? (String.ofList e.key)) (.ofText (e.value ++ after)) := by
  cases h with
  | @entry key value _ colon after hkey hvalue _ =>
      cases hkey with
      | key hquote hraw hcolon =>
          -- whoever goes on after the colon does not see the blanks before the value
          have hskip : skipValue (.ofText colon) = skipValue (.ofText (value ++ after)) := by
            rw [← hvalue]
            exact (skipFrom_value_skipBlanks [] colon).symm
          rw [bind_of_eq_ok (keyAfterComma_ofText hquote), readEntry,
            bind_of_eq_ok (readString_ofText hraw _)]
          cases hname : Member.ofName? (String.ofList key) with
          | none =>
              dsimp only
              rw [bind_of_eq_ok (colon_ofText hcolon)]
              exact bind_congr_input hskip
          | some m =>
              dsimp only [Draft.readKeyed]
              split
              · rfl
              · rw [bind_of_eq_ok (colon_ofText hcolon), ← hvalue]
                exact (d.readMember_skipBlanks m colon).symm

/-- How often a member may still come does not change when it is added. -/
theorem toNat_add_count_cons {known : Member → Bool} {m : Member} {e : Entry} {es : List Entry}
    (hnew : e.key = m.name.toList → known m = false) :
    (known m || decide (m.name.toList = e.key)).toNat +
        (es.map Entry.key).count m.name.toList =
      (known m).toNat + ((e :: es).map Entry.key).count m.name.toList := by
  rw [List.map_cons]
  by_cases hkey : e.key = m.name.toList
  · rw [hnew hkey, hkey, List.count_cons_self]
    simp [Nat.add_comm]
  · rw [List.count_cons_of_ne hkey]
    simp [Ne.symm hkey]

/-! ### No member is read twice -/

/-- A value that is accepted is left behind, and a known member was not there before. -/
theorem Draft.readKeyed_rest {d d' : Draft} {e : Entry} {after : List Char} {t : Input}
    (hscan : Scans .value (e.value ++ after) after)
    (h : d.readKeyed (Member.ofName? (String.ofList e.key)) (.ofText (e.value ++ after)) =
      .ok (d', t)) :
    t = .ofText after ∧ ∀ m : Member, (e.key = m.name.toList → d.has m = false) ∧
      d'.has m = (d.has m || decide (m.name.toList = e.key)) := by
  rw [← hscan.skipBlanks_eq] at hscan
  cases hname : Member.ofName? (String.ofList e.key) with
  | none =>
      have hne : ∀ m : Member, e.key ≠ m.name.toList := by
        intro m hm
        rw [Member.ofName?_ofList_eq_some_iff.2 hm] at hname
        cases hname
      rw [hname, readKeyed, bind_of_eq_ok (skipValue_ofText hscan)] at h
      obtain ⟨rfl, rfl⟩ := Prod.mk.inj (Except.ok.inj h)
      refine ⟨rfl, ?_⟩
      intro m
      exact ⟨fun hm => absurd hm (hne m), by simp [Ne.symm (hne m)]⟩
  | some m =>
      have hkey := Member.ofName?_ofList_eq_some_iff.1 hname
      simp only [hname, readKeyed] at h
      split at h
      · cases h
      · next hnew =>
          obtain ⟨ht, hhas⟩ := readMember_rest hscan h
          refine ⟨ht, ?_⟩
          intro m'
          constructor
          · intro hm'
            obtain rfl := Member.name_injective (hkey.symm.trans hm')
            exact Bool.eq_false_iff.2 hnew
          · have hsame : m' = m ↔ m'.name.toList = e.key := by
              rw [hkey]
              exact ⟨fun hm => by rw [hm], Member.name_injective⟩
            rw [hhas m', decide_eq_decide.2 hsame]

/-- **No known member is read twice**, nor one that the draft had before. -/
theorem count_le_of_readEntries {es : List Entry} (h : EntriesText es cs rest) {d d' : Draft}
    {t : Input} (hread : readEntries d (.ofText cs) = .ok (d', t)) (m : Member) :
    (d.has m).toNat + (es.map Entry.key).count m.name.toList ≤ 1 := by
  induction h generalizing d with
  | last he _ =>
      obtain ⟨d₁, t₁, hentry, _⟩ := bind_eq_ok hread
      rw [readEntry_ofText he] at hentry
      cases he with
      | entry _ _ hscan =>
          obtain ⟨_, hhas⟩ := Draft.readKeyed_rest hscan hentry
          rw [← toNat_add_count_cons (hhas m).1]
          exact Bool.toNat_le _
  | more he hcomma _ ih =>
      obtain ⟨d₁, t₁, hentry, hmore⟩ := bind_eq_ok hread
      rw [readEntry_ofText he] at hentry
      cases he with
      | entry _ _ hscan =>
          obtain ⟨rfl, hhas⟩ := Draft.readKeyed_rest hscan hentry
          rw [readMoreEntries_comma hcomma] at hmore
          rw [← toNat_add_count_cons (hhas m).1, ← (hhas m).2]
          exact ih hmore

/-! ### Known members are added one by one -/

namespace Draft

/-- A draft that knows some members of a configuration. -/
def ofKnown (c : Config) (known : Member → Bool) : Draft where
  format := if known .format then some c.format else none
  emitEndOfInput := if known .emitEndOfInput then some c.emitEndOfInput else none
  maxTokens := if known .maxTokens then some c.maxTokens else none

@[simp] theorem has_ofKnown (c : Config) (known : Member → Bool) (m : Member) :
    (ofKnown c known).has m = known m := by
  cases m with
  | format => cases h : known .format <;> simp [has, ofKnown, h]
  | emitEndOfInput => cases h : known .emitEndOfInput <;> simp [has, ofKnown, h]
  | maxTokens => cases h : known .maxTokens <;> simp [has, ofKnown, h]

theorem learn_ofKnown (c : Config) (known : Member → Bool) (m : Member) :
    (ofKnown c known).learn c m = ofKnown c fun m' => known m' || decide (m' = m) := by
  cases m with
  | format => simp [learn, ofKnown]
  | emitEndOfInput => simp [learn, ofKnown]
  | maxTokens => simp [learn, ofKnown]

/-- A known member that is not there yet is added, and another one changes nothing. -/
theorem readKeyed_of_written {c : Config} {known : Member → Bool} {e : Entry} {after : List Char}
    (hvalue : ∀ m : Member, e.key = m.name.toList → Reads (.value (c.memberValue m)) e.value [])
    (hnew : ∀ m : Member, e.key = m.name.toList → known m = false)
    (hscan : Scans .value (e.value ++ after) after) :
    (ofKnown c known).readKeyed (Member.ofName? (String.ofList e.key))
        (.ofText (e.value ++ after)) =
      .ok (ofKnown c fun m => known m || decide (m.name.toList = e.key), .ofText after) := by
  cases hname : Member.ofName? (String.ofList e.key) with
  | none =>
      have hsame : (fun m : Member => known m || decide (m.name.toList = e.key)) = known := by
        funext m
        have hne : m.name.toList ≠ e.key := by
          intro hm
          rw [Member.ofName?_ofList_eq_some_iff.2 hm.symm] at hname
          cases hname
        simp [hne]
      rw [← hscan.skipBlanks_eq] at hscan
      rw [readKeyed, bind_of_eq_ok (skipValue_ofText hscan), hsame]
      rfl
  | some m =>
      have hkey := Member.ofName?_ofList_eq_some_iff.1 hname
      have hsame : (fun m' : Member => known m' || decide (m' = m)) =
          fun m' => known m' || decide (m'.name.toList = e.key) := by
        funext m'
        rw [hkey, decide_eq_decide.2 ⟨fun hm => by rw [hm], Member.name_injective⟩]
      simp only [readKeyed, has_ofKnown, hnew m hkey, Bool.false_eq_true, if_false]
      rw [readMember_ofText (hvalue m hkey) hscan, learn_ofKnown, hsame]

end Draft

/-- A member that comes once at most is not there before it comes. -/
theorem not_known_of_once {known : Member → Bool} {e : Entry} {es : List Entry}
    (h : ∀ m : Member, (known m).toNat + ((e :: es).map Entry.key).count m.name.toList ≤ 1)
    (m : Member) (hkey : e.key = m.name.toList) : known m = false := by
  have hcount := h m
  rw [List.map_cons, hkey, List.count_cons_self] at hcount
  cases hknown : known m with
  | false => rfl
  | true =>
      rw [hknown, Bool.toNat_true] at hcount
      omega

/-- **Known members are added one by one.** -/
theorem readEntries_of_written {c : Config} {es : List Entry} (h : EntriesText es cs rest)
    (hvalue : ∀ e ∈ es, ∀ m : Member, e.key = m.name.toList →
      Reads (.value (c.memberValue m)) e.value [])
    {known : Member → Bool}
    (honce : ∀ m : Member, (known m).toNat + (es.map Entry.key).count m.name.toList ≤ 1) :
    readEntries (Draft.ofKnown c known) (.ofText cs) =
      .ok (Draft.ofKnown c fun m => known m || decide (m.name.toList ∈ es.map Entry.key),
        .ofText rest) := by
  -- each member that comes makes one more member known, and lowers what may still come
  induction h generalizing known with
  | @last e cs after rest he hclose =>
      have hnew := not_known_of_once honce
      have hentry := readEntry_ofText he (Draft.ofKnown c known)
      cases he with
      | entry _ _ hscan =>
          rw [Draft.readKeyed_of_written (hvalue _ List.mem_cons_self) hnew hscan] at hentry
          rw [readEntries, bind_of_eq_ok hentry, readMoreEntries_close hclose]
          simp
  | @more e es cs after more rest he hcomma _ ih =>
      have hnew := not_known_of_once honce
      have hentry := readEntry_ofText he (Draft.ofKnown c known)
      cases he with
      | entry _ _ hscan =>
          rw [Draft.readKeyed_of_written (hvalue _ List.mem_cons_self) hnew hscan] at hentry
          rw [readEntries, bind_of_eq_ok hentry, readMoreEntries_comma hcomma, ih]
          · simp [Bool.or_assoc, Bool.decide_or]
          · exact fun e' he' => hvalue e' (List.mem_cons_of_mem _ he')
          · intro m
            rw [toNat_add_count_cons (hnew m)]
            exact honce m

/-! ### Whole texts -/

/-- The first member of an object is read like those after a comma. -/
theorem readObject_ofText {es : List Entry} (h : EntriesText es cs rest) :
    readObject (.ofText cs) = readEntries {} (.ofText cs) := by
  have hquote : ∃ inner, skipBlanks cs = '"' :: inner := by
    cases h with
    | last he _ | more he _ _ =>
        cases he with
        | entry hkey _ _ =>
            cases hkey with
            | key hquote _ _ => exact ⟨_, hquote⟩
  obtain ⟨inner, hquote⟩ := hquote
  rw [readObject, bind_of_eq_ok (nextSolid_ofText hquote (by decide))]
  dsimp only
  rw [if_neg (by decide), if_pos rfl]
  have hentry : (keyAfterComma >>= fun _ => readEntry {}) (.ofText cs) =
      readEntry {} (.ofText inner) :=
    bind_of_eq_ok (keyAfterComma_ofText hquote)
  exact bind_congr_input hentry.symm

theorem readObject_empty (h : skipBlanks cs = '\x7d' :: rest) :
    readObject (.ofText cs) = .ok ({}, .ofText rest) := by
  rw [readObject, bind_of_eq_ok (nextSolid_ofText h (by decide))]
  simp only [if_true]
  rfl

/-- A text with nothing but blanks after an object is read as the object is. -/
theorem ofInput_ofText {inner : List Char} {d : Draft} (h : skipBlanks cs = '\x7b' :: inner)
    (hobject : readObject (.ofText inner) = .ok (d, .ofText rest)) (hend : skipBlanks rest = []) :
    ofInput (.ofText cs) = .ok d.toConfig := by
  have hread : read (.ofText cs) = .ok (d.toConfig, .ofText rest) := by
    rw [read, bind_of_eq_ok (nextSolid_ofText h (by decide))]
    simp only [if_true]
    rw [bind_of_eq_ok hobject]
    rfl
  have hreadEnd : readEnd (.ofText rest) = .ok ((), .ofText []) := by
    rw [readEnd, bind_of_eq_ok (nextSolid_ofText_end hend)]
    rfl
  have hwhole : (read >>= fun config => readEnd >>= fun _ => pure config) (.ofText cs) =
      .ok (d.toConfig, .ofText []) := by
    rw [bind_of_eq_ok hread, bind_of_eq_ok hreadEnd]
    rfl
  exact congrArg (Prod.fst <$> ·) hwhole

/-- An object that is not read makes a text that is not read. -/
theorem exists_of_ofInput {inner : List Char} {config : Config}
    (h : skipBlanks cs = '\x7b' :: inner) (hread : ofInput (.ofText cs) = .ok config) :
    ∃ d t, readObject (.ofText inner) = .ok (d, t) := by
  obtain ⟨_, hwhole⟩ := exists_of_run'_eq_ok hread
  obtain ⟨_, _, hconfig, _⟩ := bind_eq_ok hwhole
  rw [read, bind_of_eq_ok (nextSolid_ofText h (by decide))] at hconfig
  simp only [if_true] at hconfig
  obtain ⟨d, t, hobject, _⟩ := bind_eq_ok hconfig
  exact ⟨d, t, hobject⟩

/-- Whether a field has its default. -/
def IsDefault (c : Config) : Member → Prop
  | .format => c.format = .text
  | .emitEndOfInput => c.emitEndOfInput = true
  | .maxTokens => c.maxTokens = none

/-- **The members of an object write a configuration**: those with a known key have the values of
its fields, each is there once at most, and a field that is left out has its default. -/
structure WrittenBy (c : Config) (es : List Entry) : Prop where
  value : ∀ e ∈ es, ∀ m : Member, e.key = m.name.toList →
    Reads (.value (c.memberValue m)) e.value []
  once : ∀ m : Member, (es.map Entry.key).count m.name.toList ≤ 1
  omitted : ∀ m : Member, m.name.toList ∉ es.map Entry.key → c.IsDefault m

/-- What is not known has the default. -/
theorem Draft.toConfig_ofKnown {c : Config} {known : Member → Bool}
    (h : ∀ m, known m = false → c.IsDefault m) : (ofKnown c known).toConfig = c := by
  have hformat : ((ofKnown c known).format.getD .text) = c.format := by
    cases hknown : known .format with
    | false => simpa [ofKnown, hknown] using (h _ hknown).symm
    | true => simp [ofKnown, hknown]
  have hflag : ((ofKnown c known).emitEndOfInput.getD true) = c.emitEndOfInput := by
    cases hknown : known .emitEndOfInput with
    | false => simpa [ofKnown, hknown] using (h _ hknown).symm
    | true => simp [ofKnown, hknown]
  have hlimit : ((ofKnown c known).maxTokens.getD none) = c.maxTokens := by
    cases hknown : known .maxTokens with
    | false => simpa [ofKnown, hknown] using (h _ hknown).symm
    | true => simp [ofKnown, hknown]
  rw [toConfig, hformat, hflag, hlimit]

/-- **An object is read as the configuration that its members write.** -/
theorem WrittenBy.ofString_eq {c : Config} {es : List Entry} {s : String} (h : c.WrittenBy es)
    (htext : ObjectText es s.toList) : ofString s = .ok c := by
  change ofInput (.ofText s.toList) = .ok c
  cases htext with
  | empty hopen hclose hend =>
      have hknown : ∀ m, (fun _ : Member => false) m = false → c.IsDefault m :=
        fun m _ => h.omitted m List.not_mem_nil
      have hdefault : ({} : Draft).toConfig = c := Draft.toConfig_ofKnown hknown
      rw [ofInput_ofText hopen (readObject_empty hclose) hend, hdefault]
  | entries hopen hentries hend =>
      have honce : ∀ m : Member, ((fun _ => false : Member → Bool) m).toNat +
          (es.map Entry.key).count m.name.toList ≤ 1 :=
        fun m => by simpa using h.once m
      have hread := readEntries_of_written hentries h.value honce
      have hobject := (readObject_ofText hentries).trans hread
      rw [ofInput_ofText hopen hobject hend, Draft.toConfig_ofKnown]
      intro m hm
      exact h.omitted m (by simpa using hm)

/-- **An object with a known member twice is refused**, whatever the values. -/
theorem exists_error_of_repeated {es : List Entry} {s : String} (htext : ObjectText es s.toList)
    {m : Member} (h : 2 ≤ (es.map Entry.key).count m.name.toList) :
    ∃ cause, ofString s = .error cause := by
  cases hread : ofString s with
  | error cause => exact ⟨cause, rfl⟩
  | ok config =>
      change ofInput (.ofText s.toList) = .ok config at hread
      cases htext with
      | empty => simp at h
      | entries hopen hentries _ =>
          obtain ⟨d, t, hobject⟩ := exists_of_ofInput hopen hread
          rw [readObject_ofText hentries] at hobject
          have hcount := count_le_of_readEntries hentries hobject m
          omega

/-! ### Objects that are read -/

/-- **The members that are read of an object give a configuration**: the known ones are the values
of its fields, each is there once at most, and a field that is left out has its default. -/
structure GivenBy (c : Config) (ms : List (List Char × Value)) : Prop where
  value : ∀ p ∈ ms, ∀ m : Member, p.1 = m.name.toList → p.2 = c.memberValue m
  once : ∀ m : Member, (ms.map Prod.fst).count m.name.toList ≤ 1
  omitted : ∀ m : Member, m.name.toList ∉ ms.map Prod.fst → c.IsDefault m

/-- The value of a member is written in the same way at the end of a text. -/
theorem reads_memberValue {c : Config} {m : Member} {value after : List Char}
    (h : Reads (.value (c.memberValue m)) (value ++ after) after) :
    Reads (.value (c.memberValue m)) value [] := by
  cases m with
  | format =>
      obtain ⟨raw, hraw, htext⟩ := Reads.string_iff.1 h
      have hsplit : value ++ after = '"' :: (raw ++ ['"']) ++ after := by
        rw [htext, List.cons_append, List.append_assoc, List.singleton_append]
      rw [List.append_cancel_right hsplit]
      exact .string hraw
  | emitEndOfInput =>
      have htext := Reads.boolean_iff.1 h
      refine Reads.boolean_iff.2 ?_
      rw [List.append_cancel_right htext, List.append_nil]
  | maxTokens =>
      change Reads (.value (limitValue c.maxTokens)) (value ++ after) after at h
      change Reads (.value (limitValue c.maxTokens)) value []
      cases hlimit : c.maxTokens with
      | none =>
          rw [hlimit] at h
          rw [List.append_cancel_right (Reads.null_iff.1 h)]
          exact .null
      | some n =>
          rw [hlimit] at h
          obtain ⟨hl, _, htext⟩ := Reads.number_iff.1 h
          refine Reads.number_iff.2 ⟨hl, nofun, ?_⟩
          rw [List.append_cancel_right htext, List.append_nil]

/-- What is given by the members that are read is written by them. -/
theorem GivenBy.writtenBy {c : Config} {es : List Entry} {ms : List (List Char × Value)}
    (h : c.GivenBy ms) (hwrites : List.Forall₂ Entry.Writes es ms) : c.WrittenBy es := by
  refine ⟨?_, ?_, ?_⟩
  · intro e he m hkey
    obtain ⟨p, hp, hwritten⟩ := Entry.exists_mem_writes hwrites he
    obtain ⟨after, hvalue⟩ := hwritten.value
    rw [h.value p hp m (hwritten.key_eq.symm.trans hkey)] at hvalue
    exact reads_memberValue hvalue
  · intro m
    rw [Entry.map_key_eq hwrites]
    exact h.once m
  · intro m hm
    rw [Entry.map_key_eq hwrites] at hm
    exact h.omitted m hm

/-! ### What is written of a configuration -/

/-- The value of a member as it is written. -/
def valueText (c : Config) : Member → String
  | .format => quote c.format.name
  | .emitEndOfInput => flagJson c.emitEndOfInput
  | .maxTokens => limitJson c.maxTokens

/-- The members as they are written, in order. -/
def jsonEntries (c : Config) : List Entry :=
  [Member.format, .emitEndOfInput, .maxTokens].map fun m => ⟨m.name.toList, (c.valueText m).toList⟩

theorem toList_json (c : Config) :
    c.json.toList = '\x7b' ::
      ((quote "format").toList ++ ':' :: ((c.valueText .format).toList ++ ',' ::
        ((quote "emit_end_of_input").toList ++ ':' :: ((c.valueText .emitEndOfInput).toList ++
          ',' :: ((quote "max_tokens").toList ++ ':' :: ((c.valueText .maxTokens).toList ++
            ['\x7d'])))))) := by
  have hformat : (quote "format").toList = "\"format\"".toList := rfl
  have hflag : (quote "emit_end_of_input").toList = "\"emit_end_of_input\"".toList := rfl
  have hlimit : (quote "max_tokens").toList = "\"max_tokens\"".toList := rfl
  rw [hformat, hflag, hlimit]
  simp [json, valueText]

/-- A value is read up to what follows it. -/
theorem reads_valueText (c : Config) (m : Member) {after : List Char} (h : EndsNumber after) :
    Reads (.value (c.memberValue m)) ((c.valueText m).toList ++ after) after := by
  cases m with
  | format => exact reads_quote c.format.name after
  | emitEndOfInput =>
      change Reads (.value (.boolean c.emitEndOfInput))
        ((flagJson c.emitEndOfInput).toList ++ after) after
      cases c.emitEndOfInput with
      | true => exact .boolTrue
      | false => exact .boolFalse
  | maxTokens =>
      change Reads (.value (limitValue c.maxTokens)) ((limitJson c.maxTokens).toList ++ after) after
      cases c.maxTokens with
      | none => exact .null
      | some n =>
          rw [limitJson, String.toList_ofList, ← Literal.text_natural]
          exact .number (Literal.wellFormed_natural n.toNat) h

/-- A member is read up to what follows its value. -/
theorem entryText_valueText (c : Config) (m : Member) {after : List Char} (h : EndsNumber after) :
    EntryText ⟨m.name.toList, (c.valueText m).toList⟩
      ((quote m.name).toList ++ ':' :: ((c.valueText m).toList ++ after)) after := by
  have hreads := c.reads_valueText m h
  exact .entry (readsKey_quote m.name _) hreads.skipBlanks_eq hreads.scans

theorem endsNumber_of_separator {c : Char} (hc : c = ',' ∨ c = '\x7d') (cs : List Char) :
    EndsNumber (c :: cs) := by
  intro d hd
  obtain rfl : c = d := Option.some.inj hd
  rcases hc with rfl | rfl
  · decide
  · decide

/-- **What is written of a configuration is an object** with its members. -/
theorem objectText_json (c : Config) : ObjectText c.jsonEntries c.json.toList := by
  have hcomma := endsNumber_of_separator (c := ',') (.inl rfl)
  have hclose := endsNumber_of_separator (c := '\x7d') (.inr rfl)
  have hlimit := EntriesText.last (c.entryText_valueText .maxTokens (hclose [])) rfl
  have hflag := EntriesText.more (c.entryText_valueText .emitEndOfInput (hcomma _)) rfl hlimit
  have hformat := EntriesText.more (c.entryText_valueText .format (hcomma _)) rfl hflag
  rw [toList_json]
  exact .entries rfl hformat rfl

/-- **The members that are written of a configuration write it.** -/
theorem writtenBy_jsonEntries (c : Config) : c.WrittenBy c.jsonEntries := by
  have hkeys : c.jsonEntries.map Entry.key =
      [Member.format, .emitEndOfInput, .maxTokens].map fun m => m.name.toList := rfl
  have hall : ∀ m : Member, m ∈ [Member.format, .emitEndOfInput, .maxTokens] := by
    intro m
    cases m <;> simp
  refine ⟨?_, ?_, ?_⟩
  · intro e he m hkey
    obtain ⟨m', _, rfl⟩ := List.mem_map.1 he
    obtain rfl := Member.name_injective hkey
    have hreads : Reads (.value (c.memberValue m')) ((c.valueText m').toList ++ []) [] :=
      c.reads_valueText m' nofun
    rwa [List.append_nil] at hreads
  · intro m
    rw [hkeys]
    exact List.nodup_iff_count_le_one.1
      (List.Nodup.map (fun _ _ h => Member.name_injective h) (by decide)) _
  · intro m hm
    rw [hkeys] at hm
    exact absurd (List.mem_map.2 ⟨m, hall m, rfl⟩) hm

/-- **Only the known members count.**  An object is read as a configuration whenever its members
write that configuration: each known member at most once and with the value of its field, or left
out where the field has its default, in any order, with any blanks, however its key is spelled, and
with any other members.  Every JSON text whose value is an object that gives the configuration is
such an object, and so is what is written of a configuration.  A text in which a known member is
repeated is refused. -/
theorem ofString_members :
    (∀ (c : Config) (es : List Entry) (s : String), ObjectText es s.toList → c.WrittenBy es →
      ofString s = .ok c) ∧
    (∀ (c : Config) (ms : List (List Char × Value)) (s : String), IsJson s.toList (.object ms) →
      c.GivenBy ms → ofString s = .ok c) ∧
    (∀ c : Config, ofString c.json = .ok c) ∧
    (∀ (es : List Entry) (s : String) (m : Member), ObjectText es s.toList →
      2 ≤ (es.map Entry.key).count m.name.toList → ∃ cause, ofString s = .error cause) ∧
    ∀ (ms : List (List Char × Value)) (s : String) (m : Member), IsJson s.toList (.object ms) →
      2 ≤ (ms.map Prod.fst).count m.name.toList → ∃ cause, ofString s = .error cause := by
  refine ⟨?_, ?_, ?_, ?_, ?_⟩
  · intro c es s htext hwritten
    exact hwritten.ofString_eq htext
  · intro c ms s hjson hgiven
    obtain ⟨es, htext, hwrites⟩ := hjson.exists_objectText
    exact (hgiven.writtenBy hwrites).ofString_eq htext
  · intro c
    exact c.writtenBy_jsonEntries.ofString_eq c.objectText_json
  · intro es s m htext hrepeated
    exact exists_error_of_repeated htext hrepeated
  · intro ms s m hjson hrepeated
    obtain ⟨es, htext, hwrites⟩ := hjson.exists_objectText
    rw [← Entry.map_key_eq hwrites] at hrepeated
    exact exists_error_of_repeated htext hrepeated

/-- A key with an escape, blanks, and a member of another name with half a pair and an empty object
in it, where the flag and the limit are left out.  Beside it, a limit that is there twice. -/
theorem ofString_members_of_escaped_key :
    ofString "\x7b \"\\u0066ormat\" : \"json\",\"note\":[\"\\ud800\", \x7b\x7d] \x7d\n" =
        .ok { format := .json } ∧
      ∃ cause, ofString "\x7b\"max_tokens\":1,\"max_tokens\":null\x7d" = .error cause := by
  have hunit : HexUnit ['0', '0', '6', '6'] 0x66 :=
    .digits (p := 0) (q := 0) (r := 6) (s := 6) rfl rfl rfl rfl
  have hhalf : HexUnit ['d', '8', '0', '0'] 0xD800 :=
    .digits (p := 13) (q := 8) (r := 0) (s := 0) rfl rfl rfl rfl
  have hkey : StringText (['\\', 'u', '0', '0', '6', '6'] ++ "ormat".toList) "format".toList :=
    .cons (.unit hunit (.inl (by decide))) (stringText_flatMap "ormat".toList)
  have hvalue : StringText "json".toList "json".toList := stringText_flatMap "json".toList
  have hformat : EntryText ⟨"format".toList, "\"json\"".toList⟩
      " \"\\u0066ormat\" : \"json\",\"note\":[\"\\ud800\", \x7b\x7d] \x7d\n".toList
      ",\"note\":[\"\\ud800\", \x7b\x7d] \x7d\n".toList :=
    .entry (.key rfl hkey rfl) rfl (.scalar (.string hvalue.rawText))
  have hnested : Scans .value "[\"\\ud800\", \x7b\x7d] \x7d\n".toList " \x7d\n".toList :=
    .container (c := .list) (.more .item (.scalar (.string (.cons (.unit hhalf) .nil))) rfl
      (.last .item (.empty (c := .object) rfl) rfl))
  have hnote : EntryText ⟨"note".toList, "[\"\\ud800\", \x7b\x7d]".toList⟩
      "\"note\":[\"\\ud800\", \x7b\x7d] \x7d\n".toList " \x7d\n".toList :=
    .entry (readsKey_quote "note" _) rfl hnested
  have hwritten : WrittenBy { format := .json } [⟨"format".toList, "\"json\"".toList⟩,
      ⟨"note".toList, "[\"\\ud800\", \x7b\x7d]".toList⟩] := by
    refine ⟨?_, ?_, ?_⟩
    · intro e he m hname
      rcases List.mem_cons.1 he with rfl | he
      · obtain rfl : Member.format = m := Member.name_injective hname
        exact .string hvalue
      · obtain rfl := List.mem_singleton.1 he
        cases m <;> simp [Member.name] at hname
    · intro m
      cases m <;> decide
    · intro m hm
      cases m with
      | format => exact absurd List.mem_cons_self hm
      | emitEndOfInput | maxTokens => rfl
  have hnull := EntriesText.last (entryText_valueText {} .maxTokens
    (endsNumber_of_separator (c := '\x7d') (.inr rfl) [])) rfl
  have hone := EntriesText.more (entryText_valueText { maxTokens := some 1 } .maxTokens
    (endsNumber_of_separator (c := ',') (.inl rfl) _)) rfl hnull
  obtain ⟨hread, _, _, hrefused, _⟩ := ofString_members
  constructor
  · exact hread _ _ _ (.entries rfl (.more hformat rfl (.last hnote rfl)) rfl) hwritten
  · exact hrefused _ _ .maxTokens (.entries rfl hone rfl) (by decide)

end StreamLexer.Config
