import JmesPath.Proofs.Json.Numbers
import JmesPath.Proofs.Members

/-! # JSON text

* `Separated`, `Enclosed` — items with commas between them, and brackets around them
* `Spells` — the text of a document that is nested only so deep; white space can stand
  between its pieces
* `takes_value` — the reader takes such text as the document
* `read_of_spells` — so does it take a whole text
-/

namespace JmesPath

namespace Json

open Reader

/-! ## The grammar -/

section

variable {α : Type}

/-- Items with commas between them and any white space around them. -/
inductive Separated (item : α → List Char → Prop) : List α → List Char → Prop
  | last {a : α} {before text after : List Char} :
      Blank before → item a text → Blank after → Separated item [a] (before ++ text ++ after)
  | more {a : α} {as : List α} {before text after rest : List Char} :
      Blank before → item a text → Blank after → Separated item as rest →
      Separated item (a :: as) (before ++ text ++ after ++ ',' :: rest)

/-- Items between brackets of a kind. -/
inductive Enclosed (item : α → List Char → Prop) (opening closing : Char) :
    List α → List Char → Prop
  | none {blank : List Char} :
      Blank blank → Enclosed item opening closing [] (opening :: blank ++ [closing])
  | some {as : List α} {text : List Char} :
      Separated item as text → Enclosed item opening closing as (opening :: text ++ [closing])

end

/-- A key, a colon and the text of a value. -/
inductive MemberText {α : Type} (item : α → List Char → Prop) : String × α → List Char → Prop
  | intro (key : String) {a : α} {before after text : List Char} :
      Blank before → Blank after → item a text →
      MemberText item (key, a) (stringLiteral key ++ before ++ ':' :: after ++ text)

/-- The text of a document without brackets and braces. -/
inductive SpellsScalar : Json → List Char → Prop
  | null : SpellsScalar .null "null".toList
  | true : SpellsScalar (.boolean true) "true".toList
  | false : SpellsScalar (.boolean false) "false".toList
  | string (s : String) : SpellsScalar (.string s) (stringLiteral s)
  | number {n : Number} {text : List Char} :
      Reads (Reader.number text) n [] → SpellsScalar (.number n) text

/-- The text of an array or an object, when that of its parts is given. -/
inductive SpellsNested (item : Json → List Char → Prop) : Json → List Char → Prop
  | array {items : List Json} {text : List Char} :
      Enclosed item '[' ']' items text → SpellsNested item (.array items) text
  | object {members : List (String × Json)} {text : List Char} :
      (Members.keys members).Nodup → Enclosed (MemberText item) '\x7b' '\x7d' members text →
      SpellsNested item (.object members) text

/-- The text of a document with at most so many levels of brackets and braces. -/
def Spells : (levels : Nat) → Json → List Char → Prop
  | 0, j, text => SpellsScalar j text
  | n + 1, j, text => SpellsScalar j text ∨ SpellsNested (Spells n) j text

/-! ## The first character of a text -/

/-- The text starts a value: not with white space, and not with a closing bracket. -/
def StartsValue (text : List Char) : Prop :=
  ∃ c cs, text = c :: cs ∧ isSpace c = false ∧ c ≠ ']'

theorem StartsValue.skipSpace_append {text : List Char} (h : StartsValue text)
    (rest : List Char) : skipSpace (text ++ rest) = text ++ rest := by
  obtain ⟨c, cs, rfl, hc, -⟩ := h
  exact skipSpace_cons hc _

theorem isSpace_of_isDigit {c : Char} (h : c.isDigit) : isSpace c = false := by
  rw [← Bool.not_eq_true]
  intro hspace
  simp only [isSpace, Bool.or_eq_true, beq_iff_eq] at hspace
  rcases hspace with ((rfl | rfl) | rfl) | rfl <;> cases h

/-- A number starts with its sign or a digit. -/
theorem head_of_reads_number {c : Char} {cs rest : List Char} {n : Number}
    (h : Reads (Reader.number (c :: cs)) n rest) : c = '-' ∨ c.isDigit := by
  by_cases hminus : c = '-'
  · exact .inl hminus
  · refine .inr ?_
    rw [number_of_ne (by simp [hminus])] at h
    obtain ⟨whole, hwhole, -⟩ := reads_bind_iff.1 h
    by_cases hzero : c = '0'
    · rw [hzero]
      decide
    · simp only [wholePart] at hwhole
      split at hwhole
      · assumption
      · cases hwhole

theorem startsValue_of_number {text rest : List Char} {n : Number}
    (h : Reads (Reader.number text) n rest) : StartsValue text := by
  cases text with
  | nil => obtain ⟨_, h⟩ := h; cases h
  | cons c cs =>
    refine ⟨c, cs, rfl, ?_⟩
    rcases head_of_reads_number h with rfl | hdigit
    · exact ⟨rfl, by decide⟩
    · refine ⟨isSpace_of_isDigit hdigit, ?_⟩
      rintro rfl
      cases hdigit

theorem Spells.startsValue {n : Nat} {j : Json} {text : List Char} (h : Spells n j text) :
    StartsValue text := by
  have hscalar {j : Json} {text : List Char} (h : SpellsScalar j text) : StartsValue text := by
    cases h with
    | null => exact ⟨_, _, rfl, rfl, by decide⟩
    | true => exact ⟨_, _, rfl, rfl, by decide⟩
    | false => exact ⟨_, _, rfl, rfl, by decide⟩
    | string s => exact ⟨_, _, rfl, rfl, by decide⟩
    | number h => exact startsValue_of_number h
  cases n with
  | zero => exact hscalar h
  | succ n =>
    rcases h with h | h
    · exact hscalar h
    · cases h with
      | array h => cases h <;> exact ⟨_, _, rfl, rfl, by decide⟩
      | object _ h => cases h <;> exact ⟨_, _, rfl, rfl, by decide⟩

/-! ## Reading texts of the grammar -/

theorem endsNumber_nil : EndsNumber [] := fun _ h => by cases h

theorem endsNumber_cons {c : Char} {cs : List Char} :
    EndsNumber (c :: cs) ↔ c.isDigit = false ∧ c ∉ ['.', 'e', 'E'] := by
  simp [EndsNumber]

theorem endsNumber_blank_append {blank rest : List Char} (hblank : Blank blank)
    (h : EndsNumber rest) : EndsNumber (blank ++ rest) := by
  cases blank with
  | nil => exact h
  | cons c cs =>
    have hc := hblank c (List.mem_cons_self ..)
    simp only [isSpace, Bool.or_eq_true, beq_iff_eq] at hc
    rw [List.cons_append, endsNumber_cons]
    rcases hc with ((rfl | rfl) | rfl) | rfl <;> decide

/-- A reader takes the text of an item, in front of what goes on no number. -/
def Takes {α : Type} (item : α → List Char → Prop)
    (read : (s : List Char) → Reading (Rest Char s.length α)) : Prop :=
  ∀ {a : α} {text rest s : List Char}, item a text → EndsNumber rest →
    skipSpace s = text ++ rest → Reads (read s) a rest

section

variable {item : Json → List Char → Prop} {read : ItemReader}

theorem reads_moreItems_close {blank : List Char} (hblank : Blank blank) (rest : List Char) :
    Reads (moreItems (blank ++ ']' :: rest)) false rest := by
  refine reads_afterSpace_iff.2 ?_
  rw [hblank.skipSpace_append, skipSpace_cons rfl]
  exact ⟨_, rfl⟩

theorem reads_moreItems_comma {blank rest : List Char} (hblank : Blank blank)
    (hrest : StartsValue (skipSpace rest)) :
    Reads (moreItems (blank ++ ',' :: rest)) true rest := by
  refine reads_afterSpace_iff.2 ?_
  rw [hblank.skipSpace_append, skipSpace_cons rfl]
  obtain ⟨c, cs, hcs, -, hc⟩ := hrest
  simp only [hcs]
  split
  · next hnil => cases hnil
  · next hclose => cases hclose; exact absurd rfl hc
  · exact ⟨_, rfl⟩

theorem Separated.startsValue (hstarts : ∀ {j text}, item j text → StartsValue text)
    {js : List Json} {text : List Char} (h : Separated item js text) (rest : List Char) :
    StartsValue (skipSpace (text ++ rest)) := by
  have hfirst {j : Json} {before text : List Char} (hbefore : Blank before) (htext : item j text)
      (rest : List Char) : StartsValue (skipSpace (before ++ (text ++ rest))) := by
    have hvalue := hstarts htext
    rw [hbefore.skipSpace_append, hvalue.skipSpace_append]
    obtain ⟨c, cs, rfl, hc⟩ := hvalue
    exact ⟨c, cs ++ rest, rfl, hc⟩
  cases h with
  | last hbefore htext _ =>
    simp only [List.append_assoc]
    exact hfirst hbefore htext _
  | more hbefore htext _ _ =>
    simp only [List.append_assoc]
    exact hfirst hbefore htext _

/-- Items are read up to the closing bracket. -/
theorem reads_items_of_separated (hstarts : ∀ {j text}, item j text → StartsValue text)
    (htakes : Takes item read) {js : List Json} {text : List Char}
    (h : Separated item js text) {rest s : List Char}
    (hs : skipSpace s = skipSpace (text ++ ']' :: rest)) :
    Reads (Rest.list read moreItems s) js rest := by
  induction h generalizing s with
  | @last j before text after hbefore htext hafter =>
    simp only [List.append_assoc, hbefore.skipSpace_append,
      (hstarts htext).skipSpace_append] at hs
    have hends : EndsNumber (after ++ ']' :: rest) :=
      endsNumber_blank_append hafter (endsNumber_cons.2 (by decide))
    exact reads_list_last (htakes htext hends hs) (reads_moreItems_close hafter rest)
  | @more j js before text after others hbefore htext hafter hothers ih =>
    simp only [List.append_assoc, hbefore.skipSpace_append,
      (hstarts htext).skipSpace_append] at hs
    have hends : EndsNumber (after ++ (',' :: others ++ ']' :: rest)) :=
      endsNumber_blank_append hafter (endsNumber_cons.2 (by decide))
    exact reads_list_more (htakes htext hends hs)
      (reads_moreItems_comma hafter (hothers.startsValue hstarts _)) (ih rfl)

/-! ### Objects -/

theorem reads_key (key : String) {before : List Char} (hbefore : Blank before)
    (rest : List Char) :
    Reads (Reader.key (key.toList.flatMap escapeChar ++ '"' :: (before ++ ':' :: rest))) key
      rest := by
  have hkey : Reads (Reader.key (key.toList.flatMap escapeChar ++ '"' :: (before ++ ':' :: rest)))
      (String.ofList key.toList) rest := by
    refine (reads_stringBody key.toList _).bind fun _ => ?_
    refine Reads.bind (a := ()) (reads_afterSpace_iff.2 ?_) fun _ => ⟨_, rfl⟩
    rw [hbefore.skipSpace_append, skipSpace_cons rfl]
    exact ⟨_, rfl⟩
  rwa [String.ofList_toList] at hkey

theorem reads_member (htakes : Takes item read) (key : String) {j : Json}
    {before after text rest : List Char} (hbefore : Blank before) (hafter : Blank after)
    (htext : item j text) (hvalue : StartsValue text) (hrest : EndsNumber rest) :
    Reads (member read (key.toList.flatMap escapeChar ++
      '"' :: (before ++ ':' :: (after ++ (text ++ rest))))) (key, j) rest := by
  refine (reads_key key hbefore _).bind fun _ => ?_
  have hskip : skipSpace (after ++ (text ++ rest)) = text ++ rest := by
    rw [hafter.skipSpace_append, hvalue.skipSpace_append]
  exact (htakes htext hrest hskip).bind fun _ => ⟨_, rfl⟩

theorem reads_moreMembers_close {blank : List Char} (hblank : Blank blank) (rest : List Char) :
    Reads (moreMembers (blank ++ '\x7d' :: rest)) false rest := by
  refine reads_afterSpace_iff.2 ?_
  rw [hblank.skipSpace_append, skipSpace_cons rfl]
  exact ⟨_, rfl⟩

theorem reads_moreMembers_comma {blank before : List Char} (hblank : Blank blank)
    (hbefore : Blank before) (rest : List Char) :
    Reads (moreMembers (blank ++ ',' :: (before ++ '"' :: rest))) true rest := by
  refine reads_afterSpace_iff.2 ?_
  rw [hblank.skipSpace_append, skipSpace_cons rfl]
  refine Reads.bind (a := true) (reads_afterSpace_iff.2 ?_) fun _ => ⟨_, rfl⟩
  rw [hbefore.skipSpace_append, skipSpace_cons rfl]
  exact ⟨_, rfl⟩

/-- Members are read up to the closing brace.  The quote of the first key is read before
    them. -/
theorem reads_members_of_separated (hstarts : ∀ {j text}, item j text → StartsValue text)
    (htakes : Takes item read) {ms : List (String × Json)} {text : List Char}
    (h : Separated (MemberText item) ms text) :
    ∃ before body, Blank before ∧ text = before ++ '"' :: body ∧
      ∀ rest, Reads (Rest.list (member read) moreMembers (body ++ '\x7d' :: rest)) ms rest := by
  induction h with
  | @last m first text last hfirst hm hlast =>
    cases hm with
    | @intro key j before after text hbefore hafter htext =>
      refine ⟨first, key.toList.flatMap escapeChar ++ '"' :: (before ++ ':' :: (after ++
        (text ++ last))), hfirst, by simp [stringLiteral], fun rest => ?_⟩
      have hends : EndsNumber (last ++ '\x7d' :: rest) :=
        endsNumber_blank_append hlast (endsNumber_cons.2 (by decide))
      have hmember := reads_member htakes key hbefore hafter htext (hstarts htext) hends
      exact (reads_list_last hmember (reads_moreMembers_close hlast rest)).of_eq (by simp)
  | @more m ms first text last others hfirst hm hlast _ ih =>
    obtain ⟨blank, body, hblank, rfl, hbody⟩ := ih
    cases hm with
    | @intro key j before after text hbefore hafter htext =>
      refine ⟨first, key.toList.flatMap escapeChar ++ '"' :: (before ++ ':' :: (after ++
        (text ++ (last ++ ',' :: (blank ++ '"' :: body))))), hfirst, by simp [stringLiteral],
        fun rest => ?_⟩
      have hends : EndsNumber (last ++ ',' :: (blank ++ '"' :: (body ++ '\x7d' :: rest))) :=
        endsNumber_blank_append hlast (endsNumber_cons.2 (by decide))
      have hmember := reads_member htakes key hbefore hafter htext (hstarts htext) hends
      have hread := reads_list_more hmember (reads_moreMembers_comma hlast hblank _) (hbody rest)
      exact hread.of_eq (by simp)

end

/-! ### Values -/

theorem reads_word (letters rest : List Char) :
    Reads (word letters (letters ++ rest)) () rest := by
  induction letters with
  | nil => exact ⟨_, rfl⟩
  | cons l ls ih =>
    simp only [List.cons_append, word, if_true]
    exact ih.bind fun _ => ⟨_, rfl⟩

theorem reads_meaning (letters : List Char) (j : Json) (rest : List Char) :
    Reads (meaning letters j (letters ++ rest)) j rest :=
  (reads_word letters rest).bind fun _ => ⟨_, rfl⟩

theorem valueAt_number (inside? : Option ItemReader) {c : Char} (hc : c = '-' ∨ c.isDigit)
    (cs : List Char) : valueAt inside? c cs =
      (Reader.number (c :: cs) >>= fun n => .ok (n.map Json.number)) := by
  have hnumber : (c == '-' || c.isDigit) = true := by simpa using hc
  unfold valueAt
  split
  · cases hnumber
  · cases hnumber
  · cases hnumber
  · cases hnumber
  · cases hnumber
  · cases hnumber
  · rw [if_pos hnumber]

theorem takes_scalar (inside? : Option ItemReader) :
    Takes SpellsScalar (valueWith inside?) := by
  intro j text rest s h hrest hs
  refine reads_afterSpace_iff.2 ?_
  rw [hs]
  cases h with
  | null => exact reads_meaning ['u', 'l', 'l'] .null rest
  | true => exact reads_meaning ['r', 'u', 'e'] (.boolean true) rest
  | false => exact reads_meaning ['a', 'l', 's', 'e'] (.boolean false) rest
  | string t =>
    have htext : stringLiteral t ++ rest =
        '"' :: (t.toList.flatMap escapeChar ++ '"' :: rest) := by simp [stringLiteral]
    rw [htext]
    have hstring := (reads_stringBody t.toList rest).bind
      (b := Json.string (String.ofList t.toList))
      (f := fun text => .ok (text.map fun t => Json.string (String.ofList t)).succ)
      fun _ => ⟨_, rfl⟩
    rwa [String.ofList_toList] at hstring
  | @number n _ h =>
    cases text with
    | nil => obtain ⟨_, h⟩ := h; cases h
    | cons c cs =>
      have hnumber := reads_number_append hrest h
      simp only [List.cons_append, valueAt_number inside? (head_of_reads_number h)]
      exact hnumber.bind fun _ => ⟨_, rfl⟩

section

variable {item : Json → List Char → Prop} {read : ItemReader}
variable (hstarts : ∀ {j text}, item j text → StartsValue text) (htakes : Takes item read)
include hstarts htakes

theorem reads_items {js : List Json} {text : List Char} (h : Separated item js text)
    (rest : List Char) : Reads (items read (text ++ ']' :: rest)) js rest := by
  have hvalue := h.startsValue hstarts (']' :: rest)
  have hskip : skipSpace (skipSpace (text ++ ']' :: rest)) = skipSpace (text ++ ']' :: rest) := by
    simpa using hvalue.skipSpace_append []
  have hlist := reads_items_of_separated hstarts htakes h hskip
  refine reads_afterSpace_iff.2 ?_
  generalize skipSpace (text ++ ']' :: rest) = s at hvalue hlist ⊢
  obtain ⟨c, cs, hcs, -, hc⟩ := hvalue
  split
  · cases hcs
  · cases hcs
    exact absurd rfl hc
  · exact hlist

theorem reads_array {js : List Json} {text : List Char} (h : Enclosed item '[' ']' js text)
    (rest : List Char) :
    ∃ cs, text ++ rest = '[' :: cs ∧ Reads (items read cs) js rest := by
  cases h with
  | @none blank hblank =>
    refine ⟨blank ++ ']' :: rest, by simp, reads_afterSpace_iff.2 ?_⟩
    rw [hblank.skipSpace_append, skipSpace_cons rfl]
    exact ⟨_, rfl⟩
  | @some _ text h => exact ⟨text ++ ']' :: rest, by simp, reads_items hstarts htakes h rest⟩

theorem reads_object {ms : List (String × Json)} {text : List Char}
    (h : Enclosed (MemberText item) '\x7b' '\x7d' ms text) (rest : List Char) :
    ∃ cs, text ++ rest = '\x7b' :: cs ∧ Reads (members read cs) ms rest := by
  cases h with
  | @none blank hblank =>
    refine ⟨blank ++ '\x7d' :: rest, by simp, reads_afterSpace_iff.2 ?_⟩
    rw [hblank.skipSpace_append, skipSpace_cons rfl]
    exact ⟨_, rfl⟩
  | some h =>
    obtain ⟨before, body, hbefore, rfl, hbody⟩ := reads_members_of_separated hstarts htakes h
    refine ⟨before ++ '"' :: (body ++ '\x7d' :: rest), by simp, reads_afterSpace_iff.2 ?_⟩
    rw [hbefore.skipSpace_append, skipSpace_cons rfl]
    exact (hbody rest).bind fun _ => ⟨_, rfl⟩

theorem takes_nested : Takes (SpellsNested item) (valueWith (some read)) := by
  intro j text rest s h hrest hs
  refine reads_afterSpace_iff.2 ?_
  rw [hs]
  cases h with
  | array h =>
    obtain ⟨cs, hcs, hread⟩ := reads_array hstarts htakes h rest
    rw [hcs]
    exact hread.bind fun _ => ⟨_, rfl⟩
  | @object ms _ hkeys h =>
    obtain ⟨cs, hcs, hread⟩ := reads_object hstarts htakes h rest
    have hobject : Reads (valueAt (some read) '\x7b' cs) (.object (Members.ofList ms)) rest :=
      hread.bind fun _ => ⟨_, rfl⟩
    rw [Members.ofList_of_nodup hkeys] at hobject
    rw [hcs]
    exact hobject

end

/-- The reader takes the text of a document, in front of what goes on no number. -/
theorem takes_value (n : Nat) : Takes (Spells n) (value n) := by
  induction n with
  | zero => exact takes_scalar none
  | succ n ih =>
    intro j text rest s h hrest hs
    rcases h with h | h
    · exact takes_scalar _ h hrest hs
    · exact takes_nested Spells.startsValue ih h hrest hs

/-- A value starts with the first character behind white space. -/
theorem exists_valueAt_of_value {n : Nat} {s rest : List Char} {j : Json}
    (h : Reads (value n s) j rest) :
    ∃ inside? c cs, skipSpace s = c :: cs ∧ Reads (valueAt inside? c cs) j rest := by
  have hwith : ∃ inside?, Reads (valueWith inside? s) j rest := by
    cases n with
    | zero => exact ⟨none, h⟩
    | succ n => exact ⟨some (value n), h⟩
  obtain ⟨inside?, hwith⟩ := hwith
  have hvalue := reads_afterSpace_iff.1 hwith
  cases hskip : skipSpace s with
  | nil =>
    rw [hskip] at hvalue
    obtain ⟨_, hvalue⟩ := hvalue
    cases hvalue
  | cons c cs =>
    rw [hskip] at hvalue
    exact ⟨inside?, c, cs, rfl, hvalue⟩

/-- A text that is read is a value with nothing but white space around it. -/
theorem read_eq_ok_iff {text : List Char} {j : Json} :
    read text = .ok j ↔
      ∃ rest, Reads (value maxLevels text) j rest ∧ skipSpace rest = [] := by
  constructor
  · intro h
    unfold read document at h
    cases hvalue : value maxLevels text with
    | error e =>
      rw [hvalue] at h
      cases h
    | ok r =>
      rw [hvalue] at h
      cases hskip : skipSpace r.rest with
      | nil =>
        have hfinish : finish r.rest = .ok () := by simp only [finish, hskip]
        simp only [bind, Except.bind, hfinish] at h
        cases h
        exact ⟨r.rest, ⟨r.fewer, rfl⟩, hskip⟩
      | cons c cs =>
        have hfinish : finish r.rest = failAt .trailingCharacters (c :: cs) := by
          simp only [finish, hskip]
        simp only [bind, Except.bind, hfinish] at h
        cases h
  · rintro ⟨rest, ⟨_, hvalue⟩, hskip⟩
    have hfinish : finish rest = .ok () := by simp only [finish, hskip]
    have hdocument : document text = .ok j := by
      unfold document
      simp only [hvalue, bind, Except.bind, hfinish]
    rw [read, hdocument]
    rfl

/-- The text of a document that is nested no deeper than the reader goes is read back. -/
theorem read_of_spells {j : Json} {text : List Char} (h : Spells maxLevels j text) :
    read text = .ok j := by
  have htext : skipSpace text = text ++ [] := by simpa using h.startsValue.skipSpace_append []
  exact read_eq_ok_iff.2 ⟨[], takes_value maxLevels h endsNumber_nil htext, rfl⟩

end Json

end JmesPath
