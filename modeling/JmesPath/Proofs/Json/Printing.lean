import Mathlib.Data.List.Forall2
import JmesPath.Json.Basic
import JmesPath.Proofs.Json.Grammar

/-! # Printed values read back

* `IsNumeralChar` — the characters of numerals
* `Layout` — a way to lay out bracketed text with white space between its pieces;
  `layout_compact`, `layout_pretty`
* `Writable` — the values that JSON text can hold
* `spells_of_writable` — their text in any layout is JSON text
* `writable_reads_back` — a printed value reads back
-/

namespace JmesPath

open Json Json.Reader

/-! ## Numerals -/

/-- Whether a character can be part of a written number. -/
def IsNumeralChar (c : Char) : Prop := c.isDigit ∨ c ∈ ['-', '+', '.', 'e']

theorem isNumeralChar_toDigits {n : Nat} : ∀ c ∈ Nat.toDigits 10 n, IsNumeralChar c :=
  fun _ hc => .inl (Nat.isDigit_of_mem_toDigits (by decide) (by decide) hc)

theorem isNumeralChar_significant (d : Decimal) : ∀ c ∈ d.significant, IsNumeralChar c := by
  intro c hc
  simp only [Decimal.significant, List.mem_reverse] at hc
  exact isNumeralChar_toDigits c (List.mem_reverse.1 ((List.dropWhile_sublist _).subset hc))

theorem isNumeralChar_positional {digits : List Char} (hdigits : ∀ c ∈ digits, IsNumeralChar c)
    (lead : Int) : ∀ c ∈ NumeralLayout.positional digits lead, IsNumeralChar c := by
  have hzero : IsNumeralChar '0' := .inl rfl
  have hpoint : IsNumeralChar '.' := .inr (by decide)
  intro c hc
  unfold NumeralLayout.positional at hc
  dsimp only at hc
  split at hc
  · simp only [List.mem_cons, List.mem_append] at hc
    rcases hc with rfl | rfl | hc | hc
    · exact hzero
    · exact hpoint
    · exact (List.mem_replicate.1 hc).2 ▸ hzero
    · exact hdigits c hc
  · split at hc
    · rcases List.mem_append.1 hc with hc | hc
      · exact hdigits c hc
      · exact (List.mem_replicate.1 hc).2 ▸ hzero
    · simp only [List.mem_cons, List.mem_append] at hc
      rcases hc with hc | rfl | hc
      · exact hdigits c (List.mem_of_mem_take hc)
      · exact hpoint
      · exact hdigits c (List.mem_of_mem_drop hc)

theorem isNumeralChar_scientific {digits : List Char} (hdigits : ∀ c ∈ digits, IsNumeralChar c)
    (lead : Int) : ∀ c ∈ NumeralLayout.scientific digits lead, IsNumeralChar c := by
  intro c hc
  simp only [NumeralLayout.scientific, List.mem_cons, List.mem_append] at hc
  rcases hc with (hc | hc) | rfl | hc | hc
  · exact hdigits c (List.mem_of_mem_take hc)
  · split at hc
    · cases hc
    · rcases List.mem_cons.1 hc with rfl | hc
      · exact .inr (by decide)
      · exact hdigits c (List.mem_of_mem_drop hc)
  · exact .inr (by decide)
  · rw [hc]
    split
    · exact .inr (by decide)
    · exact .inr (by decide)
  · exact isNumeralChar_toDigits c hc

/-- The text of a finite number holds digits, signs, points and exponents only. -/
theorem isNumeralChar_jsonText {x : Binary64} (hx : x.isFinite) :
    ∀ c ∈ x.jsonText, IsNumeralChar c := by
  cases x with
  | nan => cases hx
  | infinity => cases hx
  | finite negative m _ =>
    have hwrite : ∀ c ∈ NumeralLayout.standard.write m, IsNumeralChar c := by
      intro c hc
      unfold NumeralLayout.write at hc
      dsimp only at hc
      split at hc
      · exact List.mem_singleton.1 hc ▸ .inl rfl
      · split at hc
        · exact isNumeralChar_positional (isNumeralChar_significant _) _ c hc
        · exact isNumeralChar_scientific (isNumeralChar_significant _) _ c hc
    intro c hc
    simp only [Binary64.jsonText, Binary64.numeral?, Option.getD_some] at hc
    split at hc
    · rcases List.mem_cons.1 hc with rfl | hc
      · exact .inr (by decide)
      · exact hwrite c hc
    · exact hwrite c hc

theorem IsNumeralChar.isSpace {c : Char} (h : IsNumeralChar c) : isSpace c = false := by
  rcases h with hdigit | hmem
  · exact isSpace_of_isDigit hdigit
  · simp only [List.mem_cons, List.not_mem_nil, or_false] at hmem
    rcases hmem with rfl | rfl | rfl | rfl <;> rfl

theorem skipSpace_eq_nil {rest : List Char} (hchars : ∀ c ∈ rest, IsNumeralChar c)
    (h : skipSpace rest = []) : rest = [] := by
  cases rest with
  | nil => rfl
  | cons c rest =>
    rw [skipSpace_cons (hchars c (List.mem_cons_self ..)).isSpace] at h
    cases h

/-- Text of such characters is read as a document only if it is a number. -/
theorem reads_number_of_read {text : List Char} {j : Json}
    (hchars : ∀ c ∈ text, IsNumeralChar c) (h : Json.read text = .ok j) :
    ∃ n, j = .number n ∧ Reads (Reader.number text) n [] := by
  obtain ⟨rest, hvalue, hskip⟩ := read_eq_ok_iff.1 h
  obtain ⟨inside?, c, cs, hcs, hat⟩ := exists_valueAt_of_value hvalue
  have htext : text = c :: cs := by
    cases text with
    | nil => cases hcs
    | cons d ds => rwa [skipSpace_cons (hchars d (List.mem_cons_self ..)).isSpace] at hcs
  subst htext
  have hstart : c = '-' ∨ c.isDigit := by
    rcases hchars c (List.mem_cons_self ..) with hdigit | hmem
    · exact .inr hdigit
    · obtain ⟨_, hat⟩ := hat
      simp only [List.mem_cons, List.not_mem_nil, or_false] at hmem
      rcases hmem with rfl | rfl | rfl | rfl
      · exact .inl rfl
      · cases hat
      · cases hat
      · cases hat
  rw [valueAt_number _ hstart] at hat
  obtain ⟨r, hr, hat⟩ := reads_bind_iff.1 hat
  obtain ⟨_, hat⟩ := hat
  cases hat
  obtain ⟨own, htext, -⟩ := (behindNumber_number ⟨r.fewer, hr⟩).exists_append
  have hrest := skipSpace_eq_nil
    (fun d hd => hchars d (htext ▸ List.mem_append_right own hd)) hskip
  exact ⟨r.value, rfl, hrest ▸ ⟨r.fewer, hr⟩⟩

/-! ## Layouts -/

section

variable {α β : Type} {item : α → List Char → Prop} {other : β → List Char → Prop}

theorem Json.Separated.of_map {f : β → α} {bs : List β} {text : List Char}
    (h : Separated item (bs.map f) text) : Separated (fun b => item (f b)) bs text := by
  generalize has : bs.map f = as at h
  induction h generalizing bs with
  | last hbefore htext hafter =>
    obtain ⟨b, bs, rfl, rfl, hnil⟩ := List.map_eq_cons_iff.1 has
    cases List.map_eq_nil_iff.1 hnil
    exact .last hbefore htext hafter
  | more hbefore htext hafter _ ih =>
    obtain ⟨b, bs, rfl, rfl, hbs⟩ := List.map_eq_cons_iff.1 has
    exact .more hbefore htext hafter (ih hbs)

theorem Json.Enclosed.of_map {f : β → α} {opening closing : Char} {bs : List β}
    {text : List Char} (h : Enclosed item opening closing (bs.map f) text) :
    Enclosed (fun b => item (f b)) opening closing bs text := by
  generalize has : bs.map f = as at h
  cases h with
  | none hblank =>
    cases List.map_eq_nil_iff.1 has
    exact .none hblank
  | some h =>
    subst has
    exact .some h.of_map

/-- Items between commas stay what they are when each of them is taken for something else. -/
theorem Json.Separated.transfer {R : α → β → Prop} {as : List α} {text : List Char}
    (h : Separated item as text)
    (hitem : ∀ a ∈ as, ∀ text, item a text → ∃ b, R a b ∧ other b text) :
    ∃ bs, List.Forall₂ R as bs ∧ Separated other bs text := by
  induction h with
  | last hbefore htext hafter =>
    obtain ⟨b, hb, htext⟩ := hitem _ (List.mem_singleton_self _) _ htext
    exact ⟨[b], .cons hb .nil, .last hbefore htext hafter⟩
  | more hbefore htext hafter _ ih =>
    obtain ⟨b, hb, htext⟩ := hitem _ (List.mem_cons_self ..) _ htext
    obtain ⟨bs, hbs, hothers⟩ := ih fun a ha => hitem a (List.mem_cons_of_mem _ ha)
    exact ⟨b :: bs, .cons hb hbs, .more hbefore htext hafter hothers⟩

theorem Json.Enclosed.transfer {R : α → β → Prop} {opening closing : Char} {as : List α}
    {text : List Char} (h : Enclosed item opening closing as text)
    (hitem : ∀ a ∈ as, ∀ text, item a text → ∃ b, R a b ∧ other b text) :
    ∃ bs, List.Forall₂ R as bs ∧ Enclosed other opening closing bs text := by
  cases h with
  | none hblank => exact ⟨[], .nil, .none hblank⟩
  | some h =>
    obtain ⟨bs, hbs, h⟩ := h.transfer hitem
    exact ⟨bs, hbs, .some h⟩

end

def LaidItem (write : Tree → List Char) (t : Tree) (text : List Char) : Prop := text = write t

/-- A key, a colon and a tree. -/
def LaidMember (write : Tree → List Char) (m : List Char × Tree) (text : List Char) : Prop :=
  ∃ after, Blank after ∧ text = m.1 ++ ':' :: (after ++ write m.2)

/-- A way to lay out bracketed text, at each level of brackets: white space can stand
    between its pieces. -/
structure Layout (write : Nat → Tree → List Char) : Prop where
  leaf (level : Nat) (text : List Char) : write level (.leaf text) = text
  list (level : Nat) (items : List Tree) :
    Enclosed (LaidItem (write (level + 1))) '[' ']' items (write level (.list items))
  record (level : Nat) (members : List (List Char × Tree)) :
    Enclosed (LaidMember (write (level + 1))) '\x7b' '\x7d' members
      (write level (.record members))

/-- An item that stands alone between two commas. -/
theorem separated_single {α : Type} {item : α → List Char → Prop} {a : α} {text : List Char}
    (h : item a text) : Separated item [a] text := by
  simpa using Separated.last blank_nil h blank_nil

theorem separated_cons {α : Type} {item : α → List Char → Prop} {a : α} {as : List α}
    {text rest : List Char} (h : item a text) (hothers : Separated item as rest) :
    Separated item (a :: as) (text ++ ',' :: rest) := by
  simpa using Separated.more blank_nil h blank_nil hothers

theorem layout_compact : Layout fun _ => Tree.compact where
  leaf _ _ := by rw [Tree.compact]
  list _ items := by
    rw [Tree.compact]
    cases items with
    | nil => exact .none blank_nil
    | cons t ts =>
      refine .some ?_
      induction ts generalizing t with
      | nil => exact separated_single rfl
      | cons u ts ih => exact separated_cons rfl (ih u)
  record _ members := by
    rw [Tree.compact]
    cases members with
    | nil => exact .none blank_nil
    | cons m ms =>
      refine .some ?_
      induction ms generalizing m with
      | nil => exact separated_single ⟨[], blank_nil, rfl⟩
      | cons u ms ih => exact separated_cons ⟨[], blank_nil, rfl⟩ (ih u)

theorem blank_newline (level : Nat) : Blank ('\n' :: Tree.margin level) := by
  intro c hc
  rcases List.mem_cons.1 hc with rfl | hc
  · rfl
  · rw [(List.mem_replicate.1 hc).2]
    rfl

theorem separated_prettyItems (level : Nat) (t : Tree) (ts : List Tree) :
    Separated (LaidItem (Tree.prettyAt (level + 1))) (t :: ts)
      ('\n' :: Tree.prettyItems level (t :: ts) ++ '\n' :: Tree.margin level) := by
  have hitem (t : Tree) : LaidItem (Tree.prettyAt (level + 1)) t (Tree.prettyAt (level + 1) t) :=
    rfl
  induction ts generalizing t with
  | nil =>
    have hlast := Separated.last (blank_newline (level + 1)) (hitem t) (blank_newline level)
    simpa [Tree.prettyItems] using hlast
  | cons u ts ih =>
    have hmore := Separated.more (blank_newline (level + 1)) (hitem t) blank_nil (ih u)
    simpa [Tree.prettyItems] using hmore

theorem separated_prettyMembers (level : Nat) (m : List Char × Tree)
    (ms : List (List Char × Tree)) :
    Separated (LaidMember (Tree.prettyAt (level + 1))) (m :: ms)
      ('\n' :: Tree.prettyMembers level (m :: ms) ++ '\n' :: Tree.margin level) := by
  have hmember (m : List Char × Tree) : LaidMember (Tree.prettyAt (level + 1)) m
      (m.1 ++ ':' :: ' ' :: Tree.prettyAt (level + 1) m.2) :=
    ⟨[' '], fun c hc => List.mem_singleton.1 hc ▸ rfl, rfl⟩
  induction ms generalizing m with
  | nil =>
    have hlast := Separated.last (blank_newline (level + 1)) (hmember m) (blank_newline level)
    simpa [Tree.prettyMembers] using hlast
  | cons u ms ih =>
    have hmore := Separated.more (blank_newline (level + 1)) (hmember m) blank_nil (ih u)
    simpa [Tree.prettyMembers] using hmore

theorem layout_pretty : Layout Tree.prettyAt where
  leaf _ _ := by rw [Tree.prettyAt]
  list level items := by
    cases items with
    | nil =>
      rw [Tree.prettyAt]
      exact .none blank_nil
    | cons t ts =>
      rw [Tree.prettyAt]
      exact .some (separated_prettyItems level t ts)
  record level members := by
    cases members with
    | nil =>
      rw [Tree.prettyAt]
      exact .none blank_nil
    | cons m ms =>
      rw [Tree.prettyAt]
      exact .some (separated_prettyMembers level m ms)

/-! ## Values -/

namespace Value

theorem treeItems_eq_map (items : List Value) : treeItems items = items.map tree := by
  induction items with
  | nil => rfl
  | cons v vs ih => rw [treeItems, ih, List.map_cons]

theorem treeMembers_eq_map (members : List (String × Value)) :
    treeMembers members = members.map fun m => (stringLiteral m.1, m.2.tree) := by
  induction members with
  | nil => rfl
  | cons m ms ih => rw [treeMembers, ih, List.map_cons]

theorem ofJsonItems_eq {items : List Value} {js : List Json}
    (h : List.Forall₂ (fun v j => ofJson j = v) items js) : ofJsonItems js = items := by
  induction h with
  | nil => rfl
  | cons hv _ ih => rw [ofJsonItems, hv, ih]

theorem ofJsonMembers_eq {members : List (String × Value)} {ms : List (String × Json)}
    (h : List.Forall₂ (fun m p => p.1 = m.1 ∧ ofJson p.2 = m.2) members ms) :
    ofJsonMembers ms = members := by
  induction h with
  | nil => rfl
  | cons hm _ ih => rw [ofJsonMembers, hm.1, hm.2, ih]

theorem keys_eq {members : List (String × Value)} {ms : List (String × Json)}
    (h : List.Forall₂ (fun m p => p.1 = m.1 ∧ ofJson p.2 = m.2) members ms) :
    Members.keys ms = Members.keys members := by
  induction h with
  | nil => rfl
  | cons hm _ ih => exact congrArg₂ List.cons hm.1 ih

end Value

/-- The values that JSON text can hold: without references, with each key of an object once,
    with only so many levels of arrays and objects, and with finite numbers that are read
    back from their own text. -/
inductive Writable : (levels : Nat) → Value → Prop
  | null (n : Nat) : Writable n .null
  | boolean (n : Nat) (b : Bool) : Writable n (.boolean b)
  | string (n : Nat) (s : String) : Writable n (.string s)
  | number (n : Nat) {x : Binary64} :
      x.isFinite →
      (∃ j, Json.ofString (Value.number x).compact = .ok j ∧ Value.ofJson j = .number x) →
      Writable n (.number x)
  | array {n : Nat} {items : List Value} :
      (∀ v ∈ items, Writable n v) → Writable (n + 1) (.array items)
  | object {n : Nat} {members : List (String × Value)} :
      (Members.keys members).Nodup → (∀ m ∈ members, Writable n m.2) →
      Writable (n + 1) (.object members)

theorem spells_of_scalar {n : Nat} {j : Json} {text : List Char} (h : SpellsScalar j text) :
    Spells n j text := by
  cases n with
  | zero => exact h
  | succ n => exact .inl h

theorem ofString_compact (v : Value) : Json.ofString v.compact = Json.read v.tree.compact := by
  rw [Json.ofString, Value.compact, String.toList_ofList]

theorem ofString_pretty (v : Value) : Json.ofString v.pretty = Json.read v.tree.pretty := by
  rw [Json.ofString, Value.pretty, String.toList_ofList]

/-- The text of a value in any layout is JSON text of a document that holds the value. -/
theorem spells_of_writable {write : Nat → Tree → List Char} (hwrite : Layout write) {n : Nat}
    {v : Value} (h : Writable n v) (level : Nat) :
    ∃ j, Value.ofJson j = v ∧ Spells n j (write level v.tree) := by
  induction h generalizing level with
  | null =>
    rw [Value.tree, hwrite.leaf]
    exact ⟨.null, rfl, spells_of_scalar .null⟩
  | boolean _ b =>
    refine ⟨.boolean b, rfl, ?_⟩
    cases b with
    | true =>
      rw [Value.tree, hwrite.leaf]
      exact spells_of_scalar .true
    | false =>
      rw [Value.tree, hwrite.leaf]
      exact spells_of_scalar .false
  | string _ s =>
    rw [Value.tree, hwrite.leaf]
    exact ⟨.string s, rfl, spells_of_scalar (.string s)⟩
  | number _ hfinite hread =>
    obtain ⟨j, hread, hj⟩ := hread
    rw [ofString_compact, Value.tree, Tree.compact] at hread
    obtain ⟨num, rfl, hnumber⟩ := reads_number_of_read (isNumeralChar_jsonText hfinite) hread
    rw [Value.tree, hwrite.leaf]
    exact ⟨.number num, hj, spells_of_scalar (.number hnumber)⟩
  | @array n items _ ih =>
    have hitem : ∀ v ∈ items, ∀ text, LaidItem (write (level + 1)) v.tree text →
        ∃ j, Value.ofJson j = v ∧ Spells n j text :=
      fun v hv text htext => htext ▸ ih v hv (level + 1)
    have hlist := hwrite.list level (Value.treeItems items)
    rw [Value.treeItems_eq_map] at hlist
    obtain ⟨js, hjs, htext⟩ := hlist.of_map.transfer hitem
    refine ⟨.array js, by rw [Value.ofJson, Value.ofJsonItems_eq hjs], .inr (.array ?_)⟩
    rwa [Value.tree, Value.treeItems_eq_map]
  | @object n members hkeys _ ih =>
    have hitem : ∀ m ∈ members, ∀ text,
        LaidMember (write (level + 1)) (stringLiteral m.1, m.2.tree) text →
        ∃ p : String × Json, (p.1 = m.1 ∧ Value.ofJson p.2 = m.2) ∧
          MemberText (Spells n) p text := by
      rintro ⟨k, v⟩ hm text ⟨after, hafter, rfl⟩
      obtain ⟨j, hj, htext⟩ := ih (k, v) hm (level + 1)
      refine ⟨(k, j), ⟨rfl, hj⟩, ?_⟩
      simpa using MemberText.intro k blank_nil hafter htext
    have hrecord := hwrite.record level (Value.treeMembers members)
    rw [Value.treeMembers_eq_map] at hrecord
    obtain ⟨ms, hms, htext⟩ := hrecord.of_map.transfer hitem
    refine ⟨.object ms, by rw [Value.ofJson, Value.ofJsonMembers_eq hms],
      .inr (.object (Value.keys_eq hms ▸ hkeys) ?_)⟩
    rwa [Value.tree, Value.treeMembers_eq_map]

/-- The text of a value in any layout is read back. -/
theorem read_of_writable {write : Nat → Tree → List Char} (hwrite : Layout write) {v : Value}
    (h : Writable maxLevels v) :
    ∃ j, Json.read (write 0 v.tree) = .ok j ∧ Value.ofJson j = v := by
  obtain ⟨j, hj, htext⟩ := spells_of_writable hwrite h 0
  exact ⟨j, read_of_spells htext, hj⟩

/-- A value that JSON text can hold is read back from its text, on one line and indented. -/
theorem writable_reads_back {v : Value} (h : Writable 127 v) :
    (∃ j, Json.ofString v.compact = .ok j ∧ Value.ofJson j = v) ∧
    ∃ j, Json.ofString v.pretty = .ok j ∧ Value.ofJson j = v := by
  rw [ofString_compact, ofString_pretty]
  exact ⟨read_of_writable layout_compact h, read_of_writable layout_pretty h⟩

/-- An object with a number, a control character and a quote in it. -/
theorem writable_reads_back_of_object :
    Writable 127 (.object [("a", .array [.number (.ofInt 2), .string "\u0085\""])]) ∧
    ∃ j, Json.ofString (Value.object [("a", .array [.number (.ofInt 2),
        .string "\u0085\""])]).pretty = .ok j ∧
      Value.ofJson j = .object [("a", .array [.number (.ofInt 2), .string "\u0085\""])] := by
  have hnumber : Writable 125 (.number (.ofInt 2)) := by
    have htext : (Value.number (.ofInt 2)).tree.compact = ['2'] := by decide +kernel
    have hread : Json.read ['2'] = .ok (.number (.integer 2)) := rfl
    refine .number 125 (by decide +kernel) ⟨.number (.integer 2), ?_, rfl⟩
    rw [ofString_compact, htext, hread]
  have harray : Writable 126 (.array [.number (.ofInt 2), .string "\u0085\""]) := by
    refine .array fun v hv => ?_
    simp only [List.mem_cons, List.not_mem_nil, or_false] at hv
    rcases hv with rfl | rfl
    · exact hnumber
    · exact .string 125 _
  have hobject : Writable 127
      (.object [("a", .array [.number (.ofInt 2), .string "\u0085\""])]) := by
    refine .object (by decide) fun m hm => ?_
    rw [List.mem_singleton.1 hm]
    exact harray
  exact ⟨hobject, (writable_reads_back hobject).2⟩

end JmesPath
