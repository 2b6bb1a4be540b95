import JmesPath.Proofs.Json.Finite
import JmesPath.Proofs.Json.Printing
import JmesPath.Proofs.Number.Numerals
import JmesPath.Proofs.Tree.References
import JmesPath.Value.Basic

/-! # Compact text is unambiguous

A text in front of which a value's compact text stands can be cut off again: where the value
ends is told by its own text, unless it is a number, whose digits go on as far as they can.

* `EndsNumeral` — text that goes on no numeral in front of it
* `Legible` — the values that show all they hold: data, with finite numbers
* `opening?` — the type of a value, by the first character of its text
* `commaed`, `commaed_cancel` — lists with commas between their items
* `compact_cancel` — the text of a legible value, in front of other text
* `newline_compact` — the text is a single line
-/

namespace JmesPath

open Json.Reader Scanner

/-- The text goes on no numeral in front of it. -/
def EndsNumeral (text : List Char) : Prop := ∀ c ∈ text.head?, ¬ IsNumeralChar c

theorem endsNumeral_nil : EndsNumeral [] := nofun

theorem endsNumeral_cons {c : Char} (hc : c ∈ [',', ':', ']', '\x7d']) (cs : List Char) :
    EndsNumeral (c :: cs) := by
  rintro d ⟨⟩
  simp only [List.mem_cons, List.not_mem_nil, or_false] at hc
  rcases hc with rfl | rfl | rfl | rfl <;> simp [IsNumeralChar]

theorem jsonText_append_inj {x y : Binary64} (hx : x.isFinite) (hy : y.isFinite)
    {r r' : List Char} (hr : EndsNumeral r) (hr' : EndsNumeral r')
    (h : x.jsonText ++ r = y.jsonText ++ r') : x = y ∧ r = r' := by
  obtain ⟨htext, hrest⟩ :=
    append_inj_of_run (isNumeralChar_jsonText hx) (isNumeralChar_jsonText hy) hr hr' h
  exact ⟨Binary64.jsonText_injective hx hy htext, hrest⟩

/-- A string ends at its closing quote. -/
theorem stringLiteral_append_inj {s t : String} {r r' : List Char}
    (h : stringLiteral s ++ r = stringLiteral t ++ r') : s = t ∧ r = r' := by
  simp only [stringLiteral, List.cons_append, List.append_assoc, List.nil_append] at h
  have hread := reads_stringBody s.toList r
  obtain ⟨htext, hrest⟩ := (hread.of_eq (List.cons.inj h).2).unique
    (reads_stringBody t.toList r')
  exact ⟨String.toList_injective htext, hrest⟩

/-! ## Lists with commas -/

section

variable {α : Type}

/-- Texts with commas between them. -/
def commaed (text : α → List Char) : List α → List Char
  | [] => []
  | [a] => text a
  | a :: as => text a ++ ',' :: commaed text as

/-- The text of an item can be cut off from in front of other text, if that does not look like a
    numeral that goes on. -/
def Cancels (Ok : α → Prop) (text : α → List Char) (a : α) : Prop :=
  ∀ ⦃b r r'⦄, Ok b → EndsNumeral r → EndsNumeral r' → text a ++ r = text b ++ r' → a = b ∧ r = r'

/-- What stands behind the first item: the closing bracket, or a comma and the other items. -/
def behindFirst (text : α → List Char) (closing : Char) (rest : List Char) :
    List α → List Char
  | [] => closing :: rest
  | a :: as => ',' :: (commaed text (a :: as) ++ closing :: rest)

theorem commaed_cons_append (text : α → List Char) (closing : Char) (rest : List Char) (a : α)
    (as : List α) : commaed text (a :: as) ++ closing :: rest =
      text a ++ behindFirst text closing rest as := by
  cases as with
  | nil => rfl
  | cons b as => simp [commaed, behindFirst]

variable {Ok : α → Prop} {text : α → List Char} {closing : Char}

theorem endsNumeral_behindFirst (hclosing : closing ∈ [']', '\x7d']) (rest : List Char)
    (as : List α) : EndsNumeral (behindFirst text closing rest as) := by
  cases as with
  | nil => exact endsNumeral_cons (List.mem_cons_of_mem _ (List.mem_cons_of_mem _ hclosing)) rest
  | cons a as => exact endsNumeral_cons List.mem_cons_self _

/-- Items between commas can be cut off with their closing bracket, if each of them can and none
    starts like the bracket. -/
theorem commaed_cancel (hclosing : closing ∈ [']', '\x7d'])
    (hstart : ∀ a, Ok a → ∀ cs ds, text a ++ cs ≠ closing :: ds) {as bs : List α}
    (has : ∀ a ∈ as, Ok a ∧ Cancels Ok text a) (hbs : ∀ b ∈ bs, Ok b) {r r' : List Char}
    (h : commaed text as ++ closing :: r = commaed text bs ++ closing :: r') :
    as = bs ∧ r = r' := by
  induction as generalizing bs with
  | nil =>
    cases bs with
    | nil => exact ⟨rfl, (List.cons.inj h).2⟩
    | cons b bs =>
      rw [commaed_cons_append] at h
      exact absurd h.symm (hstart b (hbs b List.mem_cons_self) _ _)
  | cons a as ih =>
    obtain ⟨ha, hcancel⟩ := has a List.mem_cons_self
    cases bs with
    | nil =>
      rw [commaed_cons_append] at h
      exact absurd h (hstart a ha _ _)
    | cons b bs =>
      rw [commaed_cons_append, commaed_cons_append] at h
      -- The first items are the same; behind them are two brackets, two commas, or one of each.
      obtain ⟨rfl, hbehind⟩ := hcancel (hbs b List.mem_cons_self)
        (endsNumeral_behindFirst hclosing r as) (endsNumeral_behindFirst hclosing r' bs) h
      have hcomma : closing ≠ ',' := by
        rintro rfl
        simp at hclosing
      cases as with
      | nil =>
        cases bs with
        | nil => exact ⟨rfl, (List.cons.inj hbehind).2⟩
        | cons c bs => exact absurd (List.cons.inj hbehind).1 hcomma
      | cons c as =>
        cases bs with
        | nil => exact absurd (List.cons.inj hbehind).1 (Ne.symm hcomma)
        | cons d bs =>
          obtain ⟨hothers, hrest⟩ := ih (fun x hx => has x (List.mem_cons_of_mem _ hx))
            (fun x hx => hbs x (List.mem_cons_of_mem _ hx)) (List.cons.inj hbehind).2
          exact ⟨congrArg (a :: ·) hothers, hrest⟩

end

/-! ## Values -/

namespace Value

/-- A value shows all that it holds in its text: it refers to nothing, and its numbers are
    finite. -/
structure Legible (v : Value) : Prop where
  data : v.IsData
  finite : v.Finite

theorem Legible.items {items : List Value} (h : (Value.array items).Legible) :
    ∀ v ∈ items, v.Legible := by
  refine fun v hv => ⟨List.eq_nil_iff_forall_not_mem.2 fun r hr => ?_,
    finite_array.1 h.finite v hv⟩
  have hnone := List.eq_nil_iff_forall_not_mem.1 h.data r
  exact hnone (mem_itemReferences.2 ⟨v, hv, hr⟩)

theorem Legible.members {members : Members Value} (h : (Value.object members).Legible) :
    ∀ m ∈ members, m.2.Legible := by
  intro m hm
  have hv : m.2 ∈ Members.values members := List.mem_map_of_mem hm
  refine ⟨List.eq_nil_iff_forall_not_mem.2 fun r hr => ?_, finite_object.1 h.finite _ hv⟩
  have hnone := List.eq_nil_iff_forall_not_mem.1 h.data r
  exact hnone (mem_memberReferences.2 ⟨m.2, hv, hr⟩)

/-- The text of a member: its key, a colon and its value. -/
def memberText (m : String × Value) : List Char := stringLiteral m.1 ++ ':' :: m.2.tree.compact

theorem compact_array (items : List Value) :
    (Value.array items).tree.compact = '[' :: commaed (·.tree.compact) items ++ [']'] := by
  have hitems : Tree.compactItems (treeItems items) = commaed (·.tree.compact) items := by
    induction items with
    | nil => rfl
    | cons v vs ih =>
      cases vs with
      | nil => rfl
      | cons w vs => simp only [treeItems, Tree.compactItems, commaed] at ih ⊢; rw [ih]
  rw [tree, Tree.compact, hitems]

theorem compact_object (members : Members Value) :
    (Value.object members).tree.compact = '\x7b' :: commaed memberText members ++ ['\x7d'] := by
  have hmembers : Tree.compactMembers (treeMembers members) = commaed memberText members := by
    induction members with
    | nil => rfl
    | cons m ms ih =>
      cases ms with
      | nil => rfl
      | cons n ms =>
        simp only [treeMembers, Tree.compactMembers, commaed, memberText, List.append_assoc,
          List.cons_append] at ih ⊢
        rw [ih]
  rw [tree, Tree.compact, hmembers]

/-- The type of a value, by the first character of its text. -/
def opening? : Char → Option Kind
  | 'n' => some .null
  | 't' | 'f' => some .boolean
  | '"' => some .string
  | '[' => some .array
  | '\x7b' => some .object
  | ']' | '\x7d' => none
  | _ => some .number

theorem opening?_of_isNumeralChar {c : Char} (h : IsNumeralChar c) :
    opening? c = some .number := by
  unfold opening?
  split <;> first | rfl | simp [IsNumeralChar] at h

theorem Legible.opening {v : Value} (h : v.Legible) :
    ∃ c cs, v.tree.compact = c :: cs ∧ opening? c = some v.kind := by
  cases v with
  | null => exact ⟨'n', _, rfl, rfl⟩
  | boolean b => cases b <;> exact ⟨_, _, rfl, rfl⟩
  | string s => exact ⟨'"', _, rfl, rfl⟩
  | array items => exact ⟨'[', _, compact_array items, rfl⟩
  | object members => exact ⟨'\x7b', _, compact_object members, rfl⟩
  | reference e => cases h.data
  | number x =>
    have hfinite : x.isFinite := h.finite x List.mem_cons_self
    have htext : (Value.number x).tree.compact = x.jsonText := rfl
    cases hcs : x.jsonText with
    | nil =>
      have hread := Binary64.read?_jsonText hfinite
      rw [hcs] at hread
      cases hread
    | cons c cs =>
      have hc : IsNumeralChar c :=
        isNumeralChar_jsonText hfinite c (hcs ▸ List.mem_cons_self)
      exact ⟨c, cs, htext.trans hcs, opening?_of_isNumeralChar hc⟩

theorem Legible.not_closing {v : Value} (h : v.Legible) (cs ds : List Char) :
    v.tree.compact ++ cs ≠ ']' :: ds := by
  obtain ⟨c, own, htext, hkind⟩ := h.opening
  intro heq
  rw [htext] at heq
  rw [(List.cons.inj heq).1] at hkind
  cases hkind

theorem memberText_not_closing (m : String × Value) (cs ds : List Char) :
    memberText m ++ cs ≠ '\x7d' :: ds := by
  intro heq
  cases (List.cons.inj heq).1

/-- The text of a member can be cut off if that of its value can. -/
theorem memberText_cancel {m : String × Value}
    (h : Cancels Legible (·.tree.compact) m.2) :
    Cancels (fun n : String × Value => n.2.Legible) memberText m := by
  intro n r r' hn hr hr' heq
  -- The key ends at its quote, and what the value has behind it is what the member has.
  simp only [memberText, List.append_assoc, List.cons_append] at heq
  obtain ⟨hkey, hbehind⟩ := stringLiteral_append_inj heq
  obtain ⟨hvalue, hrest⟩ := h hn hr hr' (List.cons.inj hbehind).2
  exact ⟨Prod.ext hkey hvalue, hrest⟩

/-- The text of a legible value can be cut off from in front of other text. -/
theorem compact_cancel (v : Value) : v.Legible → Cancels Legible (·.tree.compact) v := by
  induction v using values_induction with | value v hinside
  intro hv w r r' hw hr hr' h
  -- The first characters tell the types apart, so only pairs of one type are left.
  have hkind : v.kind = w.kind := by
    obtain ⟨c, cs, htext, hc⟩ := hv.opening
    obtain ⟨d, ds, htext', hd⟩ := hw.opening
    simp only [htext, htext', List.cons_append] at h
    rw [(List.cons.inj h).1, hd] at hc
    exact (Option.some.inj hc).symm
  cases v with
  | null =>
    cases w <;> cases hkind
    exact ⟨rfl, List.append_cancel_left h⟩
  | boolean b =>
    cases w with
    | boolean c =>
      cases b <;> cases c
      · exact ⟨rfl, List.append_cancel_left h⟩
      · cases (List.cons.inj h).1
      · cases (List.cons.inj h).1
      · exact ⟨rfl, List.append_cancel_left h⟩
    | _ => cases hkind
  | number x =>
    cases w with
    | number y =>
      obtain ⟨heq, hrest⟩ := jsonText_append_inj (hv.finite x List.mem_cons_self)
        (hw.finite y List.mem_cons_self) hr hr' h
      exact ⟨congrArg Value.number heq, hrest⟩
    | _ => cases hkind
  | string s =>
    cases w with
    | string t =>
      obtain ⟨heq, hrest⟩ := stringLiteral_append_inj h
      exact ⟨congrArg Value.string heq, hrest⟩
    | _ => cases hkind
  | array items =>
    cases w with
    | array items' =>
      simp only [compact_array, List.cons_append, List.append_assoc, List.nil_append] at h
      obtain ⟨heq, hrest⟩ := commaed_cancel (by decide) (fun _ hu => hu.not_closing)
        (fun u hu => ⟨hv.items u hu, hinside u hu (hv.items u hu)⟩) hw.items
        (List.cons.inj h).2
      exact ⟨congrArg Value.array heq, hrest⟩
    | _ => cases hkind
  | object members =>
    cases w with
    | object members' =>
      simp only [compact_object, List.cons_append, List.append_assoc, List.nil_append] at h
      obtain ⟨heq, hrest⟩ := commaed_cancel (by decide) (fun m _ => memberText_not_closing m)
        (fun m hm => ⟨hv.members m hm, memberText_cancel
          (hinside m.2 (List.mem_map_of_mem hm) (hv.members m hm))⟩) hw.members
        (List.cons.inj h).2
      exact ⟨congrArg Value.object heq, hrest⟩
    | _ => cases hkind
  | reference e => cases hv.data

/-! ## Lines -/

theorem newline_digitChar {d : Nat} (h : d < 16) : d.digitChar ≠ '\n' := by
  have hall : ∀ d < 16, d.digitChar ≠ '\n' := by decide
  exact hall d h

theorem newline_escapeChar (c : Char) : '\n' ∉ escapeChar c := by
  rcases escapeChar_cases c with ⟨d, hform, -, hletter⟩ | ⟨hlt, hform⟩ | ⟨hform, -, -, hlow⟩
  · rw [hform]
    have hd : d ≠ '\n' := by
      rintro rfl
      cases hletter
    simp [Ne.symm hd]
  · have hhigh := newline_digitChar (by omega : c.toNat / 16 < 16)
    have hlow := newline_digitChar (Nat.mod_lt c.toNat (by decide : 0 < 16))
    rw [hform]
    simp [Ne.symm hhigh, Ne.symm hlow]
  · rw [hform, List.mem_singleton]
    rintro rfl
    exact absurd hlow (by decide)

theorem newline_stringLiteral (s : String) : '\n' ∉ stringLiteral s := by
  simp [stringLiteral, newline_escapeChar]

theorem newline_jsonText (x : Binary64) : '\n' ∉ x.jsonText := by
  cases x with
  | nan | infinity => simp [Binary64.jsonText, Binary64.numeral?]
  | finite =>
    intro h
    simpa [IsNumeralChar] using isNumeralChar_jsonText rfl _ h

theorem newline_commaed {α : Type} {text : α → List Char} {as : List α}
    (h : ∀ a ∈ as, '\n' ∉ text a) : '\n' ∉ commaed text as := by
  induction as with
  | nil => exact List.not_mem_nil
  | cons a as ih =>
    have ha := h a List.mem_cons_self
    cases as with
    | nil => exact ha
    | cons b as =>
      have hothers := ih fun c hc => h c (List.mem_cons_of_mem _ hc)
      simp [commaed, ha, hothers]

/-- The text of a value is a single line. -/
theorem newline_compact (v : Value) : '\n' ∉ v.tree.compact := by
  induction v using values_induction with | value v hinside
  cases v with
  | null | reference => simp [tree, Tree.compact]
  | boolean b => cases b <;> simp [tree, Tree.compact]
  | number x => exact newline_jsonText x
  | string s => exact newline_stringLiteral s
  | array items =>
    have hitems : '\n' ∉ commaed (·.tree.compact) items := newline_commaed hinside
    rw [compact_array]
    simpa using hitems
  | object members =>
    have hmembers : '\n' ∉ commaed memberText members := by
      refine newline_commaed fun m hm => ?_
      have hvalue := hinside m.2 (List.mem_map_of_mem hm)
      simp [memberText, newline_stringLiteral, hvalue]
    rw [compact_object]
    simpa using hmembers

end Value

end JmesPath
