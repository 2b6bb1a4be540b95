import JmesPath.Proofs.Json.Printing

/-! # The two layouts of JSON text

The indented text of a value is its text on one line with spaces and line feeds put between the
pieces.  A string keeps all of its characters in both.

* `squeezed` — a text without the spaces and line feeds outside of its strings
* `Solid` — a text that loses nothing
* `solid_stringLiteral`, `solid_jsonText` — strings and numbers
* `squeezed_pretty` — the indented text without them is the text on one line
-/

namespace JmesPath

/-- Where a character of JSON text stands: outside of all strings, in one, or in one behind a
    backslash that takes it along. -/
inductive StringMode
  | outside
  | inside
  | escaped

/-- The text without the spaces and line feeds outside of its strings. -/
def squeezed : StringMode → List Char → List Char
  | _, [] => []
  | .outside, c :: cs =>
    if c = ' ' ∨ c = '\n' then squeezed .outside cs
    else c :: squeezed (if c = '"' then .inside else .outside) cs
  | .inside, c :: cs =>
    c :: squeezed (if c = '"' then .outside else if c = '\\' then .escaped else .inside) cs
  | .escaped, c :: cs => c :: squeezed .inside cs

/-! ## Outside of strings -/

theorem squeezed_space (cs : List Char) : squeezed .outside (' ' :: cs) = squeezed .outside cs :=
  if_pos (.inl rfl)

theorem squeezed_newline (cs : List Char) :
    squeezed .outside ('\n' :: cs) = squeezed .outside cs :=
  if_pos (.inr rfl)

theorem squeezed_margin (level : Nat) (cs : List Char) :
    squeezed .outside (Tree.margin level ++ cs) = squeezed .outside cs := by
  unfold Tree.margin
  induction 2 * level with
  | zero => rfl
  | succ n ih => rw [List.replicate_succ, List.cons_append, squeezed_space, ih]

theorem squeezed_cons {c : Char} (hspace : c ≠ ' ') (hnewline : c ≠ '\n') (hquote : c ≠ '"')
    (cs : List Char) : squeezed .outside (c :: cs) = c :: squeezed .outside cs := by
  rw [squeezed, if_neg (not_or.2 ⟨hspace, hnewline⟩), if_neg hquote]

/-- A text that loses nothing, and does not end in a string. -/
def Solid (text : List Char) : Prop :=
  ∀ rest, squeezed .outside (text ++ rest) = text ++ squeezed .outside rest

theorem solid_of_forall {text : List Char} (h : ∀ c ∈ text, c ≠ ' ' ∧ c ≠ '\n' ∧ c ≠ '"') :
    Solid text := by
  intro rest
  induction text with
  | nil => rfl
  | cons c text ih =>
    obtain ⟨hspace, hnewline, hquote⟩ := h c List.mem_cons_self
    rw [List.cons_append, squeezed_cons hspace hnewline hquote,
      ih fun d hd => h d (List.mem_cons_of_mem _ hd), List.cons_append]

theorem IsNumeralChar.plain {c : Char} (h : IsNumeralChar c) : c ≠ ' ' ∧ c ≠ '\n' ∧ c ≠ '"' := by
  rcases h with hdigit | hmem
  · refine ⟨?_, ?_, ?_⟩ <;> rintro rfl <;> cases hdigit
  · simp only [List.mem_cons, List.not_mem_nil, or_false] at hmem
    rcases hmem with rfl | rfl | rfl | rfl <;> decide

/-- The text of a number is solid, also that of one that is not finite. -/
theorem solid_jsonText (x : Binary64) : Solid x.jsonText := by
  have hnull : Solid "null".toList := fun _ => rfl
  cases x with
  | nan | infinity => exact hnull
  | finite => exact solid_of_forall fun c hc => (isNumeralChar_jsonText rfl c hc).plain

/-! ## Strings -/

theorem squeezed_inside {own : List Char} (hown : ∀ c ∈ own, c ≠ '"' ∧ c ≠ '\\')
    (cs : List Char) : squeezed .inside (own ++ cs) = own ++ squeezed .inside cs := by
  induction own with
  | nil => rfl
  | cons c own ih =>
    obtain ⟨hquote, hbackslash⟩ := hown c List.mem_cons_self
    rw [List.cons_append, squeezed, if_neg hquote, if_neg hbackslash,
      ih fun d hd => hown d (List.mem_cons_of_mem _ hd), List.cons_append]

theorem squeezed_escape (c : Char) (cs : List Char) :
    squeezed .inside ('\\' :: c :: cs) = '\\' :: c :: squeezed .inside cs := by
  rw [squeezed, if_neg (by decide), if_pos rfl, squeezed]

/-- Behind the written form of a character the string goes on. -/
theorem squeezed_escapeChar (c : Char) (cs : List Char) :
    squeezed .inside (escapeChar c ++ cs) = escapeChar c ++ squeezed .inside cs := by
  rcases Json.Reader.escapeChar_cases c with ⟨d, hform, -, -⟩ | ⟨hlt, hform⟩ |
    ⟨hform, hquote, hbackslash, -⟩
  · rw [hform]
    exact squeezed_escape d cs
  · have hcode : ∀ d ∈ ['0', '0', (c.toNat / 16).digitChar, (c.toNat % 16).digitChar],
        d ≠ '"' ∧ d ≠ '\\' := by
      have hhigh : c.toNat / 16 < 16 := by omega
      have hlow : c.toNat % 16 < 16 := Nat.mod_lt _ (by decide)
      simp [Json.Reader.digitChar_plain hhigh, Json.Reader.digitChar_plain hlow]
    have hown := squeezed_inside hcode cs
    simp only [List.cons_append, List.nil_append] at hown
    rw [hform]
    simp only [List.cons_append, List.nil_append]
    rw [squeezed_escape, hown]
  · rw [hform]
    exact squeezed_inside (by simp [hquote, hbackslash]) cs

theorem solid_stringLiteral (s : String) : Solid (stringLiteral s) := by
  intro rest
  have hbody (text : List Char) :
      squeezed .inside (text.flatMap escapeChar ++ '"' :: rest) =
        text.flatMap escapeChar ++ '"' :: squeezed .outside rest := by
    induction text with
    | nil => rfl
    | cons c text ih =>
      rw [List.flatMap_cons, List.append_assoc, squeezed_escapeChar, ih, List.append_assoc]
  have hopen (cs : List Char) : squeezed .outside ('"' :: cs) = '"' :: squeezed .inside cs := rfl
  simp only [stringLiteral, List.cons_append, List.append_assoc, List.nil_append, hopen, hbody]

/-! ## Values -/

/-- A character that is neither white space nor a quote, in front of other text. -/
theorem squeezed_mark {c : Char} (hc : c ∈ ['[', ']', '\x7b', '\x7d', ',', ':']) (cs : List Char) :
    squeezed .outside (c :: cs) = c :: squeezed .outside cs := by
  simp only [List.mem_cons, List.not_mem_nil, or_false] at hc
  rcases hc with rfl | rfl | rfl | rfl | rfl | rfl <;> rfl

mutual
/-- What the indented text of a value has more than the text on one line is squeezed out. -/
theorem squeezed_prettyAt (level : Nat) (v : Value) (rest : List Char) :
    squeezed .outside (v.tree.prettyAt level ++ rest) =
      v.tree.compact ++ squeezed .outside rest := by
  match v with
  | .null => rfl
  | .reference _ => rfl
  | .boolean true => rfl
  | .boolean false => rfl
  | .number x => rw [Value.tree, Tree.prettyAt, Tree.compact, solid_jsonText]
  | .string s => rw [Value.tree, Tree.prettyAt, Tree.compact, solid_stringLiteral]
  | .array [] => rfl
  | .object [] => rfl
  | .array (w :: ws) =>
    have hitems := squeezed_prettyItems level (w :: ws) ('\n' :: (Tree.margin level ++ ']' :: rest))
    rw [squeezed_newline, squeezed_margin, squeezed_mark (by decide)] at hitems
    rw [Value.tree, Tree.compact, Value.treeItems, Tree.prettyAt]
    simp only [List.cons_append, List.append_assoc, List.nil_append]
    rw [squeezed_mark (by decide), squeezed_newline, ← Value.treeItems, hitems]
  | .object ((k, w) :: ms) =>
    have hmembers := squeezed_prettyMembers level ((k, w) :: ms)
      ('\n' :: (Tree.margin level ++ '\x7d' :: rest))
    rw [squeezed_newline, squeezed_margin, squeezed_mark (by decide)] at hmembers
    rw [Value.tree, Tree.compact, Value.treeMembers, Tree.prettyAt]
    simp only [List.cons_append, List.append_assoc, List.nil_append]
    rw [squeezed_mark (by decide), squeezed_newline, ← Value.treeMembers, hmembers]

theorem squeezed_prettyItems (level : Nat) (items : List Value) (rest : List Char) :
    squeezed .outside (Tree.prettyItems level (Value.treeItems items) ++ rest) =
      Tree.compactItems (Value.treeItems items) ++ squeezed .outside rest := by
  match items with
  | [] => rfl
  | [v] =>
    simp only [Value.treeItems, Tree.prettyItems, Tree.compactItems, List.append_assoc]
    rw [squeezed_margin, squeezed_prettyAt]
  | v :: w :: vs =>
    have hmore := squeezed_prettyItems level (w :: vs) rest
    simp only [Value.treeItems, Tree.prettyItems, Tree.compactItems, List.append_assoc,
      List.cons_append] at hmore ⊢
    rw [squeezed_margin, squeezed_prettyAt, squeezed_mark (by decide), squeezed_newline, hmore]

theorem squeezed_prettyMembers (level : Nat) (members : List (String × Value))
    (rest : List Char) :
    squeezed .outside (Tree.prettyMembers level (Value.treeMembers members) ++ rest) =
      Tree.compactMembers (Value.treeMembers members) ++ squeezed .outside rest := by
  match members with
  | [] => rfl
  | [(k, v)] =>
    simp only [Value.treeMembers, Tree.prettyMembers, Tree.compactMembers, List.append_assoc,
      List.cons_append]
    rw [squeezed_margin, solid_stringLiteral, squeezed_mark (by decide), squeezed_space,
      squeezed_prettyAt]
  | (k, v) :: m :: ms =>
    have hmore := squeezed_prettyMembers level (m :: ms) rest
    simp only [Value.treeMembers, Tree.prettyMembers, Tree.compactMembers, List.append_assoc,
      List.cons_append] at hmore ⊢
    rw [squeezed_margin, solid_stringLiteral, squeezed_mark (by decide), squeezed_space,
      squeezed_prettyAt, squeezed_mark (by decide), squeezed_newline, hmore]
end

/-- The indented text of a value without the spaces and line feeds outside of its strings is its
    text on one line. -/
theorem squeezed_pretty (v : Value) :
    squeezed .outside v.pretty.toList = v.compact.toList := by
  have h := squeezed_prettyAt 0 v []
  simpa [Value.pretty, Value.compact, Tree.pretty, squeezed] using h

/-- A space in a string stays, also behind an escaped quote. -/
example : squeezed .outside "\x7b\n  \"a \\\" b\": []\n\x7d".toList =
    "\x7b\"a \\\" b\":[]\x7d".toList := by decide

end JmesPath
