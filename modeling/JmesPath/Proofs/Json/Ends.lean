import Mathlib.Data.List.DropRight
import JmesPath.Proofs.Json.Finite
import JmesPath.Proofs.Json.Grammar

/-! # The two ends of a document

A document shows by its first character what it is, and a backslash stands in strings only,
where the closing quote comes behind it.

* `Opening` — how the text of a document starts; `opening_of_read`
* `Closes` — the text that is left behind a character that is no backslash
* `closesOff_stringBody`, `closesOff_value` — strings and documents
* `getLast?_ne_of_read` — no document ends in a backslash
-/

namespace JmesPath.Json

open Reader

/-! ## The start -/

/-- The documents that are written as words. -/
def keywords : List (List Char) := ["true".toList, "false".toList, "null".toList]

/-- How the text of a document starts.  White space is all that can stand behind a keyword. -/
inductive Opening (j : Json) : List Char → Prop
  | keyword {word after : List Char} :
      word ∈ keywords → (∀ s, j ≠ .string s) → Blank after → Opening j (word ++ after)
  | bracket {c : Char} {cs : List Char} : c ∈ ['[', '\x7b', '"'] → Opening j (c :: cs)
  | number {c : Char} {cs : List Char} : c = '-' ∨ c.isDigit → Opening j (c :: cs)

theorem eq_append_of_reads_word {letters s rest : List Char} {u : Unit}
    (h : Reads (word letters s) u rest) : s = letters ++ rest := by
  induction letters generalizing s with
  | nil =>
    obtain ⟨_, h⟩ := h
    cases h
    rfl
  | cons l ls ih =>
    cases s with
    | nil => obtain ⟨_, h⟩ := h; cases h
    | cons c cs =>
      rw [word] at h
      split at h
      · next hc =>
        obtain ⟨r, hr, h⟩ := reads_bind_iff.1 h
        obtain ⟨_, h⟩ := h
        cases h
        exact congrArg₂ List.cons hc (ih ⟨_, hr⟩)
      · obtain ⟨_, h⟩ := h
        cases h

theorem eq_of_reads_meaning {letters s rest : List Char} {i j : Json}
    (h : Reads (meaning letters j s) i rest) : i = j ∧ s = letters ++ rest := by
  obtain ⟨r, hr, h⟩ := reads_bind_iff.1 h
  obtain ⟨_, h⟩ := h
  cases h
  exact ⟨rfl, eq_append_of_reads_word ⟨_, hr⟩⟩

theorem opening_of_valueAt {inside? : Option ItemReader} {c : Char} {cs rest : List Char}
    {j : Json} (h : Reads (valueAt inside? c cs) j rest) (hrest : Blank rest) :
    Opening j (c :: cs) := by
  unfold valueAt at h
  split at h
  · obtain ⟨rfl, rfl⟩ := eq_of_reads_meaning h
    exact @Opening.keyword _ "null".toList _ (by decide) nofun hrest
  · obtain ⟨rfl, rfl⟩ := eq_of_reads_meaning h
    exact @Opening.keyword _ "true".toList _ (by decide) nofun hrest
  · obtain ⟨rfl, rfl⟩ := eq_of_reads_meaning h
    exact @Opening.keyword _ "false".toList _ (by decide) nofun hrest
  · exact .bracket (by decide)
  · exact .bracket (by decide)
  · exact .bracket (by decide)
  · split at h
    · next hstart => exact .number (by simpa using hstart)
    · obtain ⟨_, h⟩ := h
      cases h

theorem blank_of_skipSpace_eq_nil {s : List Char} (h : skipSpace s = []) : Blank s :=
  List.dropWhile_eq_nil_iff.1 h

theorem reads_value_skipSpace {n : Nat} {s rest : List Char} {j : Json}
    (h : Reads (value n s) j rest) : Reads (value n (skipSpace s)) j rest := by
  have hskip : skipSpace (skipSpace s) = skipSpace s := List.dropWhile_idempotent isSpace s
  have hwith {inside? : Option ItemReader} (h : Reads (valueWith inside? s) j rest) :
      Reads (valueWith inside? (skipSpace s)) j rest := by
    rw [valueWith, reads_afterSpace_iff, hskip]
    exact reads_afterSpace_iff.1 h
  cases n with
  | zero => exact hwith h
  | succ n => exact hwith h

/-- A document is read behind the white space in front of it, and starts there. -/
theorem opening_of_read {text : List Char} {j : Json} (h : read text = .ok j) :
    read (skipSpace text) = .ok j ∧ Opening j (skipSpace text) := by
  obtain ⟨rest, hvalue, hrest⟩ := read_eq_ok_iff.1 h
  refine ⟨read_eq_ok_iff.2 ⟨rest, reads_value_skipSpace hvalue, hrest⟩, ?_⟩
  obtain ⟨inside?, c, cs, hskip, hat⟩ := exists_valueAt_of_value hvalue
  rw [hskip]
  exact opening_of_valueAt hat (blank_of_skipSpace_eq_nil hrest)

/-! ## The end -/

/-- The text that is left behind other text, the last character of which is no backslash. -/
def Closes (s rest : List Char) : Prop := ∃ own c, s = own ++ c :: rest ∧ c ≠ '\\'

section

variable {s t rest : List Char}

theorem closes_cons {c : Char} (hc : c ≠ '\\') (rest : List Char) : Closes (c :: rest) rest :=
  ⟨[], c, rfl, hc⟩

theorem Closes.suffix (h : Closes s rest) : rest <:+ s := by
  obtain ⟨own, c, rfl, -⟩ := h
  exact (List.suffix_cons c rest).trans (List.suffix_append own _)

theorem Closes.of_suffix (h : Closes s rest) (hs : s <:+ t) : Closes t rest := by
  obtain ⟨own, c, rfl, hc⟩ := h
  obtain ⟨before, rfl⟩ := hs
  exact ⟨before ++ own, c, (List.append_assoc ..).symm, hc⟩

theorem Closes.cons (c : Char) (h : Closes s rest) : Closes (c :: s) rest :=
  h.of_suffix (List.suffix_cons c s)

theorem Closes.trans {mid : List Char} (h : Closes s mid) (hmid : Closes mid rest) :
    Closes s rest :=
  hmid.of_suffix h.suffix

theorem Closes.getLast?_ne (h : Closes s rest) (hrest : ∀ c ∈ rest, c ≠ '\\') :
    s.getLast? ≠ some '\\' := by
  obtain ⟨own, c, rfl, hc⟩ := h
  rw [List.getLast?_append_cons]
  intro hlast
  rcases List.mem_cons.1 (List.mem_of_getLast? hlast) with heq | hmem
  · exact hc heq.symm
  · exact hrest _ hmem rfl

theorem skipSpace_suffix (s : List Char) : skipSpace s <:+ s := List.dropWhile_suffix _

end

namespace Reader

variable {α β : Type} {n : Nat} {s : List Char}

/-- Every result leaves an end of the text. -/
abbrev LeavesEnd (s : List Char) (x : Reading (Rest Char n α)) : Prop :=
  Delivers (fun r => r.rest <:+ s) x

/-- Every result leaves an end of the text, and takes a character in front of it that is no
    backslash. -/
abbrev ClosesOff (s : List Char) (x : Reading (Rest Char n α)) : Prop :=
  Delivers (fun r => Closes s r.rest) x

/-! ### Lists -/

theorem closesOff_afterSpace {read : (t : List Char) → Reading (Rest Char t.length α)}
    (h : ∀ t, ClosesOff t (read t)) (s : List Char) : ClosesOff s (afterSpace s read) :=
  (h _).bind fun _ hr => delivers_ok (hr.of_suffix (skipSpace_suffix s))

/-- It is the last step of a loop that matters. -/
theorem closesOff_unfold {step : (s : List Char) → Reading (Rest Char s.length (Option α))}
    (hstep : ∀ s, Delivers
      (fun r => r.rest <:+ s ∧ (r.value = none → Closes s r.rest)) (step s))
    (s : List Char) : ClosesOff s (Rest.unfold step s) := by
  rw [Rest.unfold]
  refine (hstep s).bind fun r hr => ?_
  cases hvalue : r.value with
  | none => exact delivers_ok (hr.2 hvalue)
  | some first =>
    have := r.fewer
    exact (closesOff_unfold hstep r.rest).bind fun others hothers =>
      delivers_ok (hothers.of_suffix hr.1)
termination_by s.length

theorem closesOff_list {item : (s : List Char) → Reading (Rest Char s.length α)}
    {more : (s : List Char) → Reading (Rest Char s.length Bool)}
    (hitem : ∀ s, ClosesOff s (item s)) (hmore : ∀ s, ClosesOff s (more s)) (s : List Char) :
    ClosesOff s (Rest.list item more s) := by
  refine (hitem s).bind fun first hfirst => ?_
  refine (closesOff_unfold (fun s => ?_) first.rest).bind fun others hothers =>
    delivers_ok (hfirst.trans hothers)
  refine (hmore s).bind fun again hagain => ?_
  split
  · exact (hitem again.rest).bind fun next hnext =>
      delivers_ok ⟨(hagain.trans hnext).suffix, fun _ => hagain.trans hnext⟩
  · exact delivers_ok ⟨hagain.suffix, fun _ => hagain⟩

/-! ### Strings -/

theorem leavesEnd_fourHex (s : List Char) : LeavesEnd s (fourHex s) := by
  have hfault {n : Nat} (s : List Char) :
      LeavesEnd s (fourHexFault s : Reading (Rest Char n Nat)) := by
    unfold fourHexFault
    split <;> exact delivers_error _
  unfold fourHex
  split
  · split
    · exact delivers_ok (List.suffix_append [_, _, _, _] _)
    · exact hfault _
  · exact hfault _

theorem leavesEnd_trailingUnit (s : List Char) : LeavesEnd s (trailingUnit s) := by
  unfold trailingUnit
  split
  · refine (leavesEnd_fourHex _).bind fun unit hunit => ?_
    split
    · exact delivers_ok (hunit.trans (List.suffix_append ['\\', 'u'] _))
    · exact delivers_error _
  all_goals exact delivers_error _

theorem leavesEnd_codePoint (s : List Char) : LeavesEnd s (codePoint s) := by
  refine (leavesEnd_fourHex s).bind fun unit hunit => ?_
  split
  · exact delivers_error _
  · split
    · exact (leavesEnd_trailingUnit _).bind fun second hsecond =>
        delivers_ok (hsecond.trans hunit)
    · exact delivers_ok hunit

theorem leavesEnd_escape (s : List Char) : LeavesEnd s (escape s) := by
  unfold escape
  split
  · exact delivers_error _
  · exact (leavesEnd_codePoint _).bind fun c hc => delivers_ok (hc.trans (List.suffix_cons _ _))
  · split
    · exact delivers_ok (List.suffix_cons _ _)
    · exact delivers_error _

/-- A string ends with its closing quote. -/
theorem closesOff_stringBody (s : List Char) : ClosesOff s (stringBody s) := by
  refine closesOff_unfold (fun s => ?_) s
  unfold stringItem
  split
  · exact delivers_error _
  · exact delivers_ok ⟨List.suffix_cons _ _, fun _ => closes_cons (by decide) _⟩
  · exact (leavesEnd_escape _).bind fun c hc =>
      delivers_ok ⟨hc.trans (List.suffix_cons _ _), nofun⟩
  · split
    · exact delivers_error _
    · exact delivers_ok ⟨List.suffix_cons _ _, nofun⟩

/-! ### Documents -/

theorem closesOff_number (s : List Char) : ClosesOff s (number s) := by
  rintro r hr
  obtain ⟨own, hs, hown⟩ := (behindNumber_number ⟨r.fewer, hr⟩).exists_append
  rcases List.eq_nil_or_concat' own with rfl | ⟨own, c, rfl⟩
  · exact absurd (congrArg List.length hs) (Nat.ne_of_gt r.fewer)
  · refine ⟨own, c, hs.trans (List.append_cons ..).symm, ?_⟩
    rintro rfl
    exact absurd (hown '\\' List.mem_concat_self) (by unfold NumberChar; decide)

theorem closesOff_word {letters : List Char} (hletters : ∀ l ∈ letters, l ≠ '\\') {c : Char}
    (hc : c ≠ '\\') (s : List Char) : ClosesOff (c :: s) (word letters s) := by
  induction letters generalizing c s with
  | nil => exact delivers_ok (closes_cons hc s)
  | cons l ls ih =>
    obtain ⟨hl, hls⟩ := List.forall_mem_cons.1 hletters
    cases s with
    | nil => exact delivers_error _
    | cons d s =>
      rw [word]
      split
      · next heq => exact (ih hls (heq ▸ hl) s).bind fun r hr => delivers_ok (hr.cons c)
      · exact delivers_error _

theorem closesOff_meaning {letters : List Char} (hletters : ∀ l ∈ letters, l ≠ '\\') {c : Char}
    (hc : c ≠ '\\') (j : Json) (s : List Char) : ClosesOff (c :: s) (meaning letters j s) :=
  (closesOff_word hletters hc s).bind fun _ hr => delivers_ok hr

theorem closesOff_moreItems (s : List Char) : ClosesOff s (moreItems s) := by
  refine closesOff_afterSpace (fun t => ?_) s
  split
  · exact delivers_error _
  · exact delivers_ok (closes_cons (by decide) _)
  · split
    · exact delivers_error _
    · exact delivers_error _
    · exact delivers_ok (closes_cons (by decide) _)
  · exact delivers_error _

theorem closesOff_key (s : List Char) : ClosesOff s (key s) := by
  refine (closesOff_stringBody s).bind fun text htext => ?_
  refine (closesOff_afterSpace (fun t => ?_) text.rest).bind fun colon hcolon =>
    delivers_ok (htext.trans hcolon)
  split
  · exact delivers_error _
  · exact delivers_ok (closes_cons (by decide) _)
  · exact delivers_error _

theorem closesOff_moreMembers (s : List Char) : ClosesOff s (moreMembers s) := by
  refine closesOff_afterSpace (fun t => ?_) s
  split
  · exact delivers_error _
  · exact delivers_ok (closes_cons (by decide) _)
  · next rest =>
    refine (closesOff_afterSpace (fun u => ?_) rest).bind fun quote hquote =>
      delivers_ok (hquote.cons _)
    split
    · exact delivers_error _
    · exact delivers_ok (closes_cons (by decide) _)
    · exact delivers_error _
    · exact delivers_error _
  · exact delivers_error _

section

variable {item : ItemReader} (hitem : ∀ s, ClosesOff s (item s))
include hitem

theorem closesOff_items (s : List Char) : ClosesOff s (items item s) := by
  refine closesOff_afterSpace (fun t => ?_) s
  split
  · exact delivers_error _
  · exact delivers_ok (closes_cons (by decide) _)
  · exact closesOff_list hitem closesOff_moreItems _

theorem closesOff_members (s : List Char) : ClosesOff s (members item s) := by
  have hmember (s : List Char) : ClosesOff s (member item s) :=
    (closesOff_key s).bind fun name hname => (hitem name.rest).bind fun _ hvalue =>
      delivers_ok (hname.trans hvalue)
  refine closesOff_afterSpace (fun t => ?_) s
  split
  · exact delivers_error _
  · exact delivers_ok (closes_cons (by decide) _)
  · exact (closesOff_list hmember closesOff_moreMembers _).bind fun _ hall =>
      delivers_ok (hall.cons _)
  · exact delivers_error _

end

theorem closesOff_valueWith {inside? : Option ItemReader}
    (hinside : ∀ item ∈ inside?, ∀ s, ClosesOff s (item s)) (s : List Char) :
    ClosesOff s (valueWith inside? s) := by
  refine closesOff_afterSpace (fun t => ?_) s
  split
  · exact delivers_error _
  · next c cs =>
    unfold valueAt
    split
    · exact closesOff_meaning (by simp) (by decide) _ _
    · exact closesOff_meaning (by simp) (by decide) _ _
    · exact closesOff_meaning (by simp) (by decide) _ _
    · exact (closesOff_stringBody _).bind fun _ htext => delivers_ok (htext.cons _)
    · split
      · next item => exact (closesOff_items (hinside item rfl) _).bind fun _ hr =>
          delivers_ok (hr.cons _)
      · exact delivers_error _
    · split
      · next item => exact (closesOff_members (hinside item rfl) _).bind fun _ hr =>
          delivers_ok (hr.cons _)
      · exact delivers_error _
    · split
      · exact (closesOff_number _).bind fun _ hn => delivers_ok hn
      · exact delivers_error _

theorem closesOff_value (levels : Nat) (s : List Char) : ClosesOff s (value levels s) := by
  induction levels generalizing s with
  | zero =>
    exact closesOff_valueWith (fun item hitem => absurd hitem (Option.not_mem_none item)) s
  | succ n ih =>
    refine closesOff_valueWith ?_ s
    rintro item ⟨⟩
    exact ih

end Reader

/-- No document ends in a backslash. -/
theorem getLast?_ne_of_read {text : List Char} {j : Json} (h : read text = .ok j) :
    text.getLast? ≠ some '\\' := by
  obtain ⟨rest, ⟨_, hvalue⟩, hskip⟩ := read_eq_ok_iff.1 h
  refine (closesOff_value _ _ _ hvalue).getLast?_ne fun c hc heq => ?_
  have hspace := blank_of_skipSpace_eq_nil hskip c hc
  rw [heq] at hspace
  cases hspace

end JmesPath.Json
