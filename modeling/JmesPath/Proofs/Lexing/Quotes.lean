import JmesPath.Proofs.Json.Reading
import JmesPath.Proofs.Lexing.Words

/-! # Text between quotes

The scanner finds the end of a quoted word by its own rule for backslashes, and what is
between the quotes is read by another rule.

* `escaping` — text with a backslash in front of some characters
* `delimited?_flatMap_escapeChar` — a string of JSON text ends at its closing quote
* `delimited?_escaping`, `unescapeRaw_escaping` — raw strings
* `delimited?_escaping_backtick`, `unescapeLiteral_escaping` — literals
-/

namespace JmesPath.Scanner

open Json.Reader

/-- Text with a backslash in front of each of these characters. -/
def escaping (special text : List Char) : List Char :=
  text.flatMap fun c => if c ∈ special then ['\\', c] else [c]

theorem escaping_cons_of_mem {special : List Char} {c : Char} (hc : c ∈ special)
    (text : List Char) : escaping special (c :: text) = '\\' :: c :: escaping special text := by
  simp [escaping, hc]

theorem escaping_cons_of_not_mem {special : List Char} {c : Char} (hc : c ∉ special)
    (text : List Char) : escaping special (c :: text) = c :: escaping special text := by
  simp [escaping, hc]

section

variable {quote : Char} {escapable : List Char}

/-! ## The end of quoted text -/

/-- A character that is no quote and no backslash does not decide anything. -/
theorem delimited?_cons {c : Char} (hquote : c ≠ quote) (hbackslash : c ≠ '\\')
    (cs : List Char) :
    delimited? quote escapable (c :: cs) = (delimited? quote escapable cs).map (c :: ·) := by
  cases cs with
  | nil => simp [delimited?, hquote]
  | cons d cs =>
    have hescape : ¬ (c = '\\' ∧ d ∈ escapable) := fun h => hbackslash h.1
    simp only [delimited?, if_neg hquote, if_neg hescape]

/-- A backslash takes along a character that can be escaped. -/
theorem delimited?_escape (hquote : '\\' ≠ quote) {d : Char} (hd : d ∈ escapable)
    (cs : List Char) :
    delimited? quote escapable ('\\' :: d :: cs) =
      (delimited? quote escapable cs).map ('\\' :: d :: ·) := by
  simp only [delimited?, if_neg hquote, hd, and_self, if_true]

/-- In front of any other character a backslash is plain text. -/
theorem delimited?_backslash (hquote : '\\' ≠ quote) {d : Char} (hd : d ∉ escapable)
    (cs : List Char) :
    delimited? quote escapable ('\\' :: d :: cs) =
      (delimited? quote escapable (d :: cs)).map ('\\' :: ·) := by
  simp only [delimited?, if_neg hquote, hd, and_false, if_false]

/-- A word between quotes, if its quote is found and the text in front of it is read. -/
theorem quotedWord_of_inner {inner : List Char} {t : Token}
    {read : List Char → Except LexError Token}
    (hinner : delimited? quote escapable (inner ++ [quote]) = some inner)
    (hread : read inner = .ok t) :
    quotedWord quote escapable 0 read (inner ++ [quote]) =
      ⟨.ok t, (inner ++ [quote]).length + 1⟩ :=
  quotedWord_eq_ok_iff.2 ⟨inner, hinner, hread, by simp⟩

theorem delimited?_append_plain (escapable : List Char) {own : List Char}
    (hown : ∀ c ∈ own, c ≠ quote ∧ c ≠ '\\') (cs : List Char) :
    delimited? quote escapable (own ++ cs) =
      (delimited? quote escapable cs).map (own ++ ·) := by
  induction own with
  | nil => simp
  | cons c own ih =>
    obtain ⟨hquote, hbackslash⟩ := hown c (List.mem_cons_self ..)
    rw [List.cons_append, delimited?_cons hquote hbackslash,
      ih fun d hd => hown d (List.mem_cons_of_mem _ hd), Option.map_map]
    rfl

end

/-! ## Strings of JSON text -/

theorem delimited?_escapeChar (c : Char) (cs : List Char) :
    delimited? '"' ['"', '\\'] (escapeChar c ++ cs) =
      (delimited? '"' ['"', '\\'] cs).map (escapeChar c ++ ·) := by
  rcases escapeChar_cases c with ⟨d, hform, -, -⟩ | ⟨hlt, hform⟩ | ⟨hform, hquote, hbackslash, -⟩
  · rw [hform]
    by_cases hd : d ∈ ['"', '\\']
    · exact delimited?_escape (by decide) hd cs
    · have hplain : d ≠ '"' ∧ d ≠ '\\' := by simpa using hd
      simp only [List.cons_append, List.nil_append]
      rw [delimited?_backslash (by decide) hd, delimited?_cons hplain.1 hplain.2, Option.map_map]
      rfl
  · rw [hform]
    have hcode : ∀ d ∈ ['u', '0', '0', (c.toNat / 16).digitChar, (c.toNat % 16).digitChar],
        d ≠ '"' ∧ d ≠ '\\' := by
      intro d hd
      simp only [List.mem_cons, List.not_mem_nil, or_false] at hd
      rcases hd with rfl | rfl | rfl | rfl | rfl
      · decide
      · decide
      · decide
      · exact digitChar_plain (by omega)
      · exact digitChar_plain (Nat.mod_lt _ (by decide))
    have hplain := delimited?_append_plain ['"', '\\'] hcode cs
    simp only [List.cons_append, List.nil_append] at hplain ⊢
    rw [delimited?_backslash (by decide) (by decide), hplain, Option.map_map]
    rfl
  · rw [hform]
    exact delimited?_cons hquote hbackslash cs

/-- A string of JSON text ends at its closing quote. -/
theorem delimited?_flatMap_escapeChar (text rest : List Char) :
    delimited? '"' ['"', '\\'] (text.flatMap escapeChar ++ '"' :: rest) =
      some (text.flatMap escapeChar) := by
  induction text with
  | nil => exact delimited?_close _ _ _
  | cons c text ih =>
    rw [List.flatMap_cons, List.append_assoc, delimited?_escapeChar, ih]
    rfl

theorem unquote_flatMap_escapeChar (text : List Char) :
    Json.unquote (text.flatMap escapeChar) = .ok (String.ofList text) := by
  obtain ⟨_, hbody⟩ := reads_stringBody text []
  have honly : onlyString (text.flatMap escapeChar ++ ['"']) = .ok text := by
    unfold onlyString
    rw [hbody]
    rfl
  simp only [Json.unquote, honly]

/-! ## Raw strings -/

theorem delimited?_escaping (text rest : List Char) :
    delimited? '\'' ['\'', '\\'] (escaping ['\'', '\\'] text ++ '\'' :: rest) =
      some (escaping ['\'', '\\'] text) := by
  induction text with
  | nil => exact delimited?_close _ _ _
  | cons c text ih =>
    by_cases hc : c ∈ ['\'', '\\']
    · rw [escaping_cons_of_mem hc, List.cons_append, List.cons_append,
        delimited?_escape (by decide) hc, ih]
      rfl
    · have hplain : c ≠ '\'' ∧ c ≠ '\\' := by simpa using hc
      rw [escaping_cons_of_not_mem hc, List.cons_append, delimited?_cons hplain.1 hplain.2, ih]
      rfl

theorem unescapeRaw_escaping (text : List Char) :
    unescapeRaw (escaping ['\'', '\\'] text) = text := by
  induction text with
  | nil => rfl
  | cons c text ih =>
    by_cases hc : c ∈ ['\'', '\\']
    · rw [escaping_cons_of_mem hc]
      simp only [List.mem_cons, List.not_mem_nil, or_false] at hc
      rcases hc with rfl | rfl
      · rw [unescapeRaw, ih]
      · rw [unescapeRaw, ih]
    · rw [escaping_cons_of_not_mem hc]
      have hbackslash : c ≠ '\\' := fun heq => hc (by simp [heq])
      rw [unescapeRaw, ih]
      · intro _ heq _
        exact hbackslash heq
      · intro _ heq _
        exact hbackslash heq

/-! ## Literals -/

/-- Where a backtick could stand first there is its backslash. -/
theorem escaping_backtick_cons (c : Char) (text : List Char) :
    ∃ d more, escaping ['\x60'] (c :: text) = d :: more ∧ d ≠ '\x60' := by
  by_cases hc : c ∈ ['\x60']
  · exact ⟨_, _, escaping_cons_of_mem hc text, by decide⟩
  · exact ⟨_, _, escaping_cons_of_not_mem hc text, by simpa using hc⟩

theorem delimited?_escaping_backtick {text : List Char} (hlast : text.getLast? ≠ some '\\')
    (rest : List Char) :
    delimited? '\x60' ['\x60'] (escaping ['\x60'] text ++ '\x60' :: rest) =
      some (escaping ['\x60'] text) := by
  induction text with
  | nil => exact delimited?_close _ _ _
  | cons c text ih =>
    have htail : text.getLast? ≠ some '\\' := by
      cases text with
      | nil => exact nofun
      | cons d text => simpa using hlast
    by_cases hc : c ∈ ['\x60']
    · rw [escaping_cons_of_mem hc, List.cons_append, List.cons_append,
        delimited?_escape (by decide) hc, ih htail]
      rfl
    · have hquote : c ≠ '\x60' := by simpa using hc
      rw [escaping_cons_of_not_mem hc, List.cons_append]
      by_cases hbackslash : c = '\\'
      · -- The backslash is not the last character, and no backtick stands behind it.
        subst hbackslash
        cases text with
        | nil => exact absurd rfl hlast
        | cons d text =>
          obtain ⟨e, more, hmore, he⟩ := escaping_backtick_cons d text
          have hih := ih htail
          rw [hmore, List.cons_append] at hih ⊢
          rw [delimited?_backslash (by decide) (by simpa using he), hih]
          rfl
      · rw [delimited?_cons hquote hbackslash, ih htail]
        rfl

theorem unescapeLiteral_escaping (text : List Char) :
    unescapeLiteral (escaping ['\x60'] text) = text := by
  induction text with
  | nil => rfl
  | cons c text ih =>
    by_cases hc : c ∈ ['\x60']
    · rw [escaping_cons_of_mem hc]
      cases List.mem_singleton.1 hc
      rw [unescapeLiteral, ih]
    · rw [escaping_cons_of_not_mem hc, unescapeLiteral, ih]
      intro cs _ heq
      cases text with
      | nil => cases heq
      | cons d text =>
        obtain ⟨e, more, hmore, he⟩ := escaping_backtick_cons d text
        cases hmore.symm.trans heq
        exact he rfl

end JmesPath.Scanner
