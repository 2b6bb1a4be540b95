import Mathlib
import JmesPath.Proofs.Json.Ends
import JmesPath.Proofs.Json.Printing
import JmesPath.Proofs.Lexing.Quotes
import JmesPath.Proofs.Lexing.Spelling
import JmesPath.Proofs.Text.Blanks

/-! # Literals of JSON text

The scanner decides by the first character of a literal whether it is JSON text.  Only a
keyword is compared with all of the literal, and so is taken for the inside of a string if
there is white space behind it.

* `PaddedKeyword` — a keyword with white space behind it
* `literalValue_escaping_iff` — every other document is read as what it is
* `tokenize_document_iff` — so it is one token
* `isWord_literal_of_writable` — the written form of a value is read back
-/

namespace JmesPath

namespace Scanner

open Json Json.Reader Rules

/-! ## The first character -/

theorem isBlank_of_isSpace {c : Char} (h : Reader.isSpace c) : isBlank c := by
  simp only [Reader.isSpace, Bool.or_eq_true, beq_iff_eq] at h
  rcases h with ((rfl | rfl) | rfl) | rfl <;> decide +kernel

/-- What is trimmed is the white space of JSON text, if no other blank stands behind it. -/
theorem trimStart_eq_skipSpace {text : List Char}
    (h : ∀ c ∈ (skipSpace text).head?, isBlank c = false) : trimStart text = skipSpace text := by
  induction text with
  | nil => rfl
  | cons c text ih =>
    by_cases hc : Reader.isSpace c
    · have hskip : skipSpace (c :: text) = skipSpace text := List.dropWhile_cons_of_pos hc
      rw [hskip] at h ⊢
      rw [← ih h]
      exact List.dropWhile_cons_of_pos (isBlank_of_isSpace hc)
    · rw [skipSpace_cons (Bool.eq_false_of_not_eq_true hc)] at h ⊢
      exact List.dropWhile_cons_of_neg (by simp [h c rfl])

theorem isBlank_of_opening {j : Json} {text : List Char} (h : Opening j text) :
    ∀ c ∈ text.head?, isBlank c = false := by
  cases h with
  | keyword hword =>
    simp only [keywords, List.mem_cons, List.not_mem_nil, or_false] at hword
    rcases hword with rfl | rfl | rfl <;> rintro c ⟨⟩ <;> decide +kernel
  | bracket hc =>
    rintro c ⟨⟩
    simp only [List.mem_cons, List.not_mem_nil, or_false] at hc
    rcases hc with rfl | rfl | rfl <;> decide +kernel
  | number hc =>
    rintro c ⟨⟩
    rcases hc with rfl | hdigit
    · decide +kernel
    · exact isBlank_of_isDigit hdigit

/-! ## Keywords -/

/-- A keyword with white space behind it; there can be some in front of it too. -/
def PaddedKeyword (text : List Char) : Prop :=
  ∃ word after, word ∈ keywords ∧ Blank after ∧ after ≠ [] ∧ skipSpace text = word ++ after

theorem PaddedKeyword.exists_getLast? {text : List Char} (h : PaddedKeyword text) :
    ∃ c ∈ text.getLast?, Reader.isSpace c := by
  obtain ⟨word, after, -, hafter, hne, hskip⟩ := h
  obtain ⟨before, hbefore⟩ := skipSpace_suffix text
  rw [← hbefore, hskip, ← List.append_assoc, List.getLast?_append_of_ne_nil _ hne]
  exact ⟨_, List.getLast?_eq_some_getLast hne, hafter _ (List.getLast_mem hne)⟩

theorem looksLikeJson_keyword {word : List Char} (hword : word ∈ keywords) (after : List Char) :
    looksLikeJson (word ++ after) ↔ after = [] := by
  simp only [keywords, List.mem_cons, List.not_mem_nil, or_false] at hword
  rcases hword with rfl | rfl | rfl <;> simp [looksLikeJson]

/-- A document is told by its first character, unless it is a keyword with white space
    behind it. -/
theorem looksLikeJson_or_keyword {j : Json} {text : List Char} (h : Json.read text = .ok j)
    (hopening : Opening j text) :
    looksLikeJson text ∨ ∃ word after, word ∈ keywords ∧ Blank after ∧ after ≠ [] ∧
      text = word ++ after ∧ ∀ s, j ≠ .string s := by
  cases hopening with
  | @keyword word after hword hj hafter =>
    by_cases hnil : after = []
    · exact .inl ((looksLikeJson_keyword hword after).2 hnil)
    · exact .inr ⟨word, after, hword, hafter, hnil, rfl, hj⟩
  | bracket hc =>
    simp only [List.mem_cons, List.not_mem_nil, or_false] at hc
    rcases hc with rfl | rfl | rfl <;> exact .inl rfl
  | @number c cs hc =>
    have hstart : (c == '-' || c.isDigit) = true := by simpa using hc
    left
    unfold looksLikeJson
    dsimp only
    split
    · rfl
    · rw [h]
      rfl

/-! ## Documents as literals -/

/-- A document is read as what it is, unless it is a keyword with white space behind it. -/
theorem literalValue_escaping_iff {text : List Char} {j : Json} (h : Json.read text = .ok j) :
    literalValue (escaping ['\x60'] text) = .ok (.ofJson j) ↔ ¬ PaddedKeyword text := by
  obtain ⟨hread, hopening⟩ := opening_of_read h
  rw [literalValue, unescapeLiteral_escaping,
    trimStart_eq_skipSpace (isBlank_of_opening hopening)]
  rcases looksLikeJson_or_keyword hread hopening with
    hlooks | ⟨word, after, hword, hafter, hne, hskip, hj⟩
  · rw [if_pos hlooks, hread]
    refine iff_of_true rfl ?_
    rintro ⟨word, after, hword, -, hne, hskip⟩
    rw [hskip] at hlooks
    exact hne ((looksLikeJson_keyword hword after).1 hlooks)
  · have hlooks : ¬ looksLikeJson (skipSpace text) := by
      rw [hskip]
      exact fun hlooks => hne ((looksLikeJson_keyword hword after).1 hlooks)
    rw [if_neg hlooks]
    refine iff_of_false ?_ (not_not_intro ⟨word, after, hword, hafter, hne, hskip⟩)
    -- What is read is a string, and no keyword means one.
    cases unquote (skipSpace text) with
    | error e => exact nofun
    | ok s =>
      intro heq
      cases j with
      | string t => exact hj t rfl
      | _ => cases heq

theorem isWord_literal {text : List Char} {v : Value} (hlast : text.getLast? ≠ some '\\')
    (hvalue : literalValue (escaping ['\x60'] text) = .ok v) :
    IsWord (.literal v) ('\x60' :: escaping ['\x60'] text ++ ['\x60']) := by
  refine ⟨'\x60', escaping ['\x60'] text ++ ['\x60'], rfl, ?_⟩
  refine quotedWord_of_inner (delimited?_escaping_backtick hlast []) ?_
  simp only [hvalue]

theorem tokenize_literal_iff {text : List Char} {v : Value} (hlast : text.getLast? ≠ some '\\') :
    tokenize ('\x60' :: escaping ['\x60'] text ++ ['\x60']) = .ok [⟨.literal v, 0⟩] ↔
      literalValue (escaping ['\x60'] text) = .ok v := by
  constructor
  · intro h
    rcases tokens_eq_ok h with ⟨-, hnil⟩ | ⟨first, others, t, n, _, hrest, hword, -, -, hts⟩
    · cases hnil
    · have hskip := skipSpace_of_head 0 (rfl : Scanner.isSpace '\x60' = false)
        (escaping ['\x60'] text ++ ['\x60'])
      cases (congrArg Cursor.rest hskip).symm.trans hrest
      cases hts
      obtain ⟨inner, hinner, hread, -⟩ := quotedWord_eq_ok_iff.1 hword
      cases (delimited?_escaping_backtick hlast []).symm.trans hinner
      split at hread
      · next hvalue => cases hread; exact hvalue
      · cases hread
  · exact fun h => tokens_of_isWord (isWord_literal hlast h) 0

/-! ## Printed values -/

theorem isSpace_getLast?_compact {n : Nat} {v : Value} (h : Writable n v) :
    ∀ c ∈ v.tree.compact.getLast?, Reader.isSpace c = false := by
  have hclosed (text : List Char) {d : Char} (hd : Reader.isSpace d = false) :
      ∀ c ∈ (text ++ [d]).getLast?, Reader.isSpace c = false := by
    rw [List.getLast?_concat]
    rintro c ⟨⟩
    exact hd
  cases h with
  | null => exact hclosed "nul".toList rfl
  | boolean _ b =>
    cases b with
    | true => exact hclosed "tru".toList rfl
    | false => exact hclosed "fals".toList rfl
  | string _ s => exact hclosed _ rfl
  | number _ hfinite _ =>
    exact fun c hc => (isNumeralChar_jsonText hfinite c (List.mem_of_getLast? hc)).isSpace
  | array _ => exact hclosed _ rfl
  | object _ _ => exact hclosed _ rfl

/-- The written form of a literal is read back. -/
theorem isWord_literal_of_writable {v : Value} (h : Writable 127 v) :
    IsWord (.literal v) ('\x60' :: escaping ['\x60'] v.tree.compact ++ ['\x60']) := by
  obtain ⟨j, hread, hj⟩ := read_of_writable layout_compact h
  have hpadded : ¬ PaddedKeyword v.tree.compact := by
    intro hpadded
    obtain ⟨c, hc, hspace⟩ := hpadded.exists_getLast?
    rw [isSpace_getLast?_compact h c hc] at hspace
    cases hspace
  have hvalue := (literalValue_escaping_iff hread).2 hpadded
  rw [hj] at hvalue
  exact isWord_literal (getLast?_ne_of_read hread) hvalue

end Scanner

/-- JSON text between backticks is one token with its value, unless it is a keyword with white
    space behind it. -/
theorem tokenize_document_iff {text : List Char} {j : Json} (h : Json.read text = .ok j) :
    tokenize ('\x60' :: Scanner.escaping ['\x60'] text ++ ['\x60']) =
        .ok [⟨.literal (.ofJson j), 0⟩] ↔ ¬ Scanner.PaddedKeyword text :=
  (Scanner.tokenize_literal_iff (Json.getLast?_ne_of_read h)).trans
    (Scanner.literalValue_escaping_iff h)

/-- White space around an array and a backtick inside it change nothing. -/
theorem tokenize_document_of_array :
    Json.read " [\"\x60\", -1, null] \n".toList =
        .ok (.array [.string "\x60", .number (.integer (-1)), .null]) ∧
      tokenize ('\x60' :: Scanner.escaping ['\x60'] " [\"\x60\", -1, null] \n".toList ++
        ['\x60']) =
        .ok [⟨.literal (.ofJson (.array [.string "\x60", .number (.integer (-1)), .null])), 0⟩] := by
  have hread : Json.read " [\"\x60\", -1, null] \n".toList =
      .ok (.array [.string "\x60", .number (.integer (-1)), .null]) := by cbv
  refine ⟨hread, (tokenize_document_iff hread).2 ?_⟩
  rintro ⟨word, after, hword, -, -, hskip⟩
  simp only [Json.keywords, List.mem_cons, List.not_mem_nil, or_false] at hword
  rcases hword with rfl | rfl | rfl <;> cases hskip

/-- The document `true` with a space behind it becomes a string. -/
theorem padded_keyword_is_string :
    Json.read "true ".toList = .ok (.boolean true) ∧
      tokenize ('\x60' :: Scanner.escaping ['\x60'] "true ".toList ++ ['\x60']) =
        .ok [⟨.literal (.string "true "), 0⟩] ∧
      tokenize ('\x60' :: Scanner.escaping ['\x60'] "true ".toList ++ ['\x60']) ≠
        .ok [⟨.literal (.ofJson (.boolean true)), 0⟩] := by
  have hvalue : Scanner.literalValue (Scanner.escaping ['\x60'] "true ".toList) =
      .ok (.string "true ") := by cbv
  have htokens := (Scanner.tokenize_literal_iff (by decide)).2 hvalue
  refine ⟨by cbv, htokens, fun h => ?_⟩
  cases htokens.symm.trans h

end JmesPath
